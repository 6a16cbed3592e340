import Wxml.Path

/-!
# The command line

The words of a command line are read from left to right.  An option that takes a value waits for it
(`Pending`), and what waits is stored when the next option or path begins: so a word that is no
option at all is noticed before a bad value that stands in front of it.
-/

namespace Wxml

/-- How results are reported. -/
inductive OutputFormat where
  | human
  | json
  | machine
  deriving DecidableEq, Repr

/-- What a command line says. -/
structure CommandLine where
  paths : List Path
  workspace : Option Path
  outDir : Option Path
  stdout : Bool
  config : Option Path
  watch : Bool
  output : Option OutputFormat
  ignore : List Text
  noComments : Bool
  timings : Bool
  preserveWatchOutput : Bool
  verbose : Bool
  deriving DecidableEq, Repr

namespace CommandLine

/-- The command line without any word. -/
def empty : CommandLine :=
  ⟨[], none, none, false, none, false, none, [], false, false, false, false⟩

/-- How results are reported: for people, unless said otherwise. -/
def format (c : CommandLine) : OutputFormat := c.output.getD .human

/-- Why there is nothing to run. -/
inductive Stop where
  | unknownArgument
  | invalidValue
  | repeatedArgument
  /-- A flag with a value. -/
  | unneededValue
  | showHelp
  | showVersion
  deriving DecidableEq, Repr

/-- An option without a value. -/
inductive Flag where
  | stdout
  | watch
  | noComments
  | timings
  | preserveWatchOutput
  | verbose
  | help
  | version
  deriving DecidableEq, Repr

/-- An option with a value. -/
inductive Setting where
  | workspace
  | outDir
  | config
  | output
  | ignore
  deriving DecidableEq, Repr

/-- What a name on the command line stands for. -/
inductive Argument where
  | flag (flag : Flag)
  | setting (setting : Setting)
  deriving DecidableEq, Repr

/-- The long names. -/
def longNames : List (Text × Argument) :=
  [("workspace", .setting .workspace), ("out-dir", .setting .outDir), ("stdout", .flag .stdout),
    ("config", .setting .config), ("watch", .flag .watch), ("output", .setting .output),
    ("ignore", .setting .ignore), ("no-comments", .flag .noComments), ("timings", .flag .timings),
    ("preserve-watch-output", .flag .preserveWatchOutput), ("verbose", .flag .verbose),
    ("help", .flag .help), ("version", .flag .version)]

/-- The short names. -/
def shortNames : List (Char × Argument) :=
  [('o', .setting .outDir), ('c', .setting .config), ('w', .flag .watch), ('v', .flag .verbose),
    ('h', .flag .help), ('V', .flag .version)]

/-! ### Storing -/

/-- Sets a flag, which must not be set yet.  The two flags that ask for a text end the reading. -/
def setFlag (c : CommandLine) : Flag → Except Stop CommandLine
  | .stdout => if c.stdout then .error .repeatedArgument else .ok { c with stdout := true }
  | .watch => if c.watch then .error .repeatedArgument else .ok { c with watch := true }
  | .noComments =>
    if c.noComments then .error .repeatedArgument else .ok { c with noComments := true }
  | .timings => if c.timings then .error .repeatedArgument else .ok { c with timings := true }
  | .preserveWatchOutput =>
    if c.preserveWatchOutput then .error .repeatedArgument
    else .ok { c with preserveWatchOutput := true }
  | .verbose => if c.verbose then .error .repeatedArgument else .ok { c with verbose := true }
  | .help => .error .showHelp
  | .version => .error .showVersion

/-- A path, which must not be empty. -/
def path (value : Text) : Except Stop Path :=
  if value.isEmpty then .error .invalidValue else .ok ⟨value⟩

/-- The format that a name stands for. -/
def formatOfName (value : Text) : Except Stop OutputFormat :=
  if value = ("human" : Text) then .ok .human
  else if value = ("json" : Text) then .ok .json
  else if value = ("machine" : Text) then .ok .machine
  else .error .invalidValue

/-- Whether a setting has its value already.  Patterns to ignore can be given again and again. -/
def isSet (c : CommandLine) : Setting → Bool
  | .workspace => c.workspace.isSome
  | .outDir => c.outDir.isSome
  | .config => c.config.isSome
  | .output => c.output.isSome
  | .ignore => false

/-- Gives a setting its value. -/
def setValue (c : CommandLine) (setting : Setting) (value : Text) : Except Stop CommandLine :=
  if c.isSet setting then .error .repeatedArgument
  else
    match setting with
    | .workspace => (path value).map fun p => { c with workspace := some p }
    | .outDir => (path value).map fun p => { c with outDir := some p }
    | .config => (path value).map fun p => { c with config := some p }
    | .output => (formatOfName value).map fun f => { c with output := some f }
    | .ignore => .ok { c with ignore := c.ignore ++ [value] }

/-- Adds paths. -/
def addPaths (c : CommandLine) : List Text → Except Stop CommandLine
  | [] => .ok c
  | word :: words =>
    match path word with
    | .ok p => addPaths { c with paths := c.paths ++ [p] } words
    | .error stop => .error stop

/-! ### Reading -/

/-- What was read and is not stored yet. -/
inductive Pending where
  | nothing
  /-- A setting that needs a value. -/
  | setting (setting : Setting)
  /-- A setting and its value. -/
  | value (setting : Setting) (value : Text)
  | paths (words : List Text)
  deriving DecidableEq, Repr

/-- Where the reading stands.  After two dashes every word is a path. -/
structure Reading where
  stored : CommandLine
  pending : Pending
  pathsOnly : Bool
  deriving DecidableEq, Repr

namespace Reading

def start : Reading := ⟨.empty, .nothing, false⟩

/-- Stores what is pending. -/
def settle (r : Reading) : Except Stop Reading :=
  match r.pending with
  | .nothing => .ok r
  | .setting _ => .error .invalidValue
  | .value setting value =>
    (r.stored.setValue setting value).map fun c => { r with stored := c, pending := .nothing }
  | .paths words =>
    (r.stored.addPaths words).map fun c => { r with stored := c, pending := .nothing }

/-- Sets a flag. -/
def setFlag (r : Reading) (flag : Flag) : Except Stop Reading :=
  match r.settle with
  | .error stop => .error stop
  | .ok r => (r.stored.setFlag flag).map fun c => { r with stored := c }

/-- Takes a setting, with the value attached to it or to wait for one. -/
def take (r : Reading) (setting : Setting) (attached : Option Text) : Except Stop Reading :=
  match r.settle with
  | .error stop => .error stop
  | .ok r =>
    match attached with
    | none => .ok { r with pending := .setting setting }
    | some value => (r.stored.setValue setting value).map fun c => { r with stored := c }

/-- Takes a word that is a path. -/
def addPath (r : Reading) (word : Text) : Except Stop Reading :=
  match r.pending with
  | .paths words => .ok { r with pending := .paths (words ++ [word]) }
  | _ => r.settle.map fun r => { r with pending := .paths [word] }

/-- Takes a word after its two dashes. -/
def long (r : Reading) (word : Text) : Except Stop Reading :=
  let name := word.takeWhile (· != '=')
  let attached := if name.length < word.length then some (word.drop (name.length + 1)) else none
  match longNames.lookup name, attached with
  | none, _ => .error .unknownArgument
  | some (.setting setting), attached => r.take setting attached
  | some (.flag _), some _ => .error .unneededValue
  | some (.flag flag), none => r.setFlag flag

/-- Takes a word after its one dash: flags, and at most one setting with the rest of the word for
its value. -/
def short (r : Reading) : Text → Except Stop Reading
  | [] => .ok r
  | c :: t =>
    match shortNames.lookup c with
    | none => .error .unknownArgument
    | some (.flag flag) => (r.setFlag flag).bind fun r => r.short t
    | some (.setting setting) =>
      match t with
      | [] => r.take setting none
      | '=' :: value => r.take setting (some value)
      | value => r.take setting (some value)

/-- Takes a word that is no option: the value of a setting that waits for one, or a path. -/
def plain (r : Reading) (word : Text) : Except Stop Reading :=
  match r.pending with
  | .setting setting => .ok { r with pending := .value setting word }
  | _ => r.addPath word

/-- Takes a word. -/
def word (r : Reading) (word : Text) : Except Stop Reading :=
  if r.pathsOnly then r.addPath word
  else
    match word with
    | ['-', '-'] => .ok { r with pathsOnly := true }
    | '-' :: '-' :: t => r.long t
    | '-' :: c :: t => r.short (c :: t)
    | word => r.plain word

end Reading

/-- Takes words up to the end. -/
def readWords (r : Reading) : List Text → Except Stop CommandLine
  | [] => r.settle.map (·.stored)
  | word :: words =>
    match r.word word with
    | .ok r => readWords r words
    | .error stop => .error stop

/-- What the words after the name of the program say. -/
def parse (words : List Text) : Except Stop CommandLine := readWords .start words

end CommandLine

end Wxml
