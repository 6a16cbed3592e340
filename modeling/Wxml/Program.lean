import Wxml.Session

/-!
# The program

What the command does with its words: it runs, or it shows a text, or it says what is wrong with
them.
-/

namespace Wxml

namespace Program

/-- What the command came to: its exit status, what it told, and the files after it. -/
structure Execution (σ : Type) where
  status : Nat
  messages : List Report.Message
  files : σ

def versionText : Text := "vue2wxml 0.1.0"

def helpLines : List Text :=
  ["Convert Vue single-file component templates to WeChat WXML",
    "",
    "Usage: vue2wxml [OPTIONS] [PATHS]...",
    "",
    "Arguments:",
    "  [PATHS]...  Files or directories to convert (default: the workspace)",
    "",
    "Options:",
    "      --workspace <WORKSPACE>  Workspace directory; the config file is looked up here",
    "  -o, --out-dir <OUT_DIR>      Directory to write `.wxml` files to",
    "                               (default: next to each source)",
    "      --stdout                 Print converted markup to stdout instead of writing files",
    "  -c, --config <CONFIG>        Path to a vue2wxml.json config file",
    "  -w, --watch                  Reconvert files as they change",
    "      --output <OUTPUT>        Diagnostics format [default: human]",
    "                               [possible values: human, json, machine]",
    "      --ignore <IGNORE>        Ignore patterns (glob)",
    "      --no-comments            Drop template comments from the output",
    "      --timings                Show timing information",
    "      --preserve-watch-output  Preserve watch output (don't clear screen)",
    "  -v, --verbose                Verbose output",
    "  -h, --help                   Print help",
    "  -V, --version                Print version"]

/-- What is told instead of a run. -/
def stopMessages : CommandLine.Stop → List Report.Message
  | .unknownArgument => [.err "error: unexpected argument"]
  | .invalidValue => [.err "error: invalid or missing value for an argument"]
  | .repeatedArgument => [.err "error: an argument cannot be used multiple times"]
  | .unneededValue => [.err "error: unexpected value for an argument"]
  | .showHelp => helpLines.map .out
  | .showVersion => [.out versionText]

/-- The exit status without a run: only a request for a text is no error. -/
def stopStatus : CommandLine.Stop → Nat
  | .showHelp => 0
  | .showVersion => 0
  | _ => 2

/-- The exit status of a program that stopped. -/
def abortStatus : Nat := 101

variable {σ : Type} [FileSystem σ]

/-- A run, with the workspace `here` unless the command line names one. -/
def run (files : σ) (here : Path) (milliseconds : Nat) (line : CommandLine) :
    Except Session.Fault (Session.Result σ) :=
  match Session.start files (line.workspace.getD here) line with
  | .error fault => .error fault
  | .ok session => session.run files milliseconds

/-- What the command does with its words.  A file that fails makes it fail. -/
def execute (files : σ) (here : Path) (milliseconds : Nat) (words : List Text) : Execution σ :=
  match CommandLine.parse words with
  | .error stop => ⟨stopStatus stop, stopMessages stop, files⟩
  | .ok line =>
    match run files here milliseconds line with
    | .error (.aborted _) => ⟨abortStatus, [], files⟩
    | .error fault => ⟨1, [.err ("Error: " ++ fault.message)], files⟩
    | .ok result => ⟨if result.counts.failed = 0 then 0 else 1, result.messages, result.files⟩

end Program

end Wxml
