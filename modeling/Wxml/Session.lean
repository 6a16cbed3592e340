import Wxml.Config
import Wxml.Report

/-!
# A run

A run finds the files to convert, converts all of them, and then writes and reports the results one
after another.  The state of the file system goes in and comes out; every message is kept in order.
-/

namespace Wxml

/-- A configured run. -/
structure Session where
  config : Config
  line : CommandLine

namespace Session

/-- Why a run did not take place. -/
inductive Fault where
  | config (fault : Config.Fault)
  | pathNotFound (path : Path)
  /-- The program stopped while it converted a file. -/
  | aborted (file : Path)
  deriving DecidableEq, Repr

def Fault.message : Fault → Text
  | config fault => fault.message
  | pathNotFound path => "Path not found: " ++ path.text
  | aborted file => "Stopped at " ++ file.text

variable {σ : Type} [FileSystem σ]

/-- The run that a command line asks for. -/
def start (files : σ) (workspace : Path) (line : CommandLine) : Except Fault Session :=
  match Config.load files workspace line with
  | .ok config => .ok ⟨config, line⟩
  | .error fault => .error (.config fault)

def style (s : Session) : Report.Style := ⟨s.line.format, s.line.verbose⟩

/-! ### Finding files -/

/-- Where to look: the paths asked for, or the workspace. -/
def roots (s : Session) : List Path :=
  if s.line.paths.isEmpty then [s.config.workspace]
  else s.line.paths.map s.config.workspace.join

/-- The files to convert at a root: a file itself, whether ignored or not, or those of a walk from
there that are not. -/
def filesAt (s : Session) (files : σ) (root : Path) : Except Fault (List Path) :=
  match FileSystem.kind? files root with
  | none => .error (.pathNotFound root)
  | some .file => .ok (if s.config.hasExtension root then [root] else [])
  | some _ =>
    let found := (FileSystem.walk files root).filter fun entry =>
      entry.2 != .directory && s.config.shouldProcess entry.1
    .ok (found.map Prod.fst)

/-- The files to convert at some roots, root by root. -/
def collect (s : Session) (files : σ) : List Path → Except Fault (List Path)
  | [] => .ok []
  | root :: roots =>
    match s.filesAt files root with
    | .error fault => .error fault
    | .ok here => (s.collect files roots).map (here ++ ·)

/-- The paths without those that are the same as the one before them. -/
def dropRepeats : List Path → List Path
  | [] => []
  | [p] => [p]
  | p :: q :: ps =>
    if p.same q then dropRepeats (p :: ps) else p :: dropRepeats (q :: ps)
termination_by ps => ps.length

/-- The files to convert, each once, in the order of paths. -/
def discover (s : Session) (files : σ) : Except Fault (List Path) :=
  (s.collect files s.roots).map fun found =>
    dropRepeats (found.mergeSort fun p q => (p.order q).isLE)

/-! ### Converting -/

/-- The markup of a file. -/
def convert (s : Session) (files : σ) (file : Path) : Except Conversion.Fault Text :=
  match FileSystem.readText files file with
  | .error cause => .error (.unreadable file.text cause.message)
  | .ok source => Conversion.ofSource s.config.conversion source

/-- Where the markup of a file is written. -/
def outputPath (s : Session) (file : Path) : Path :=
  match s.config.outDir with
  | none => file.withExtension "wxml"
  | some dir =>
    let name : Path := ⟨Path.renameExtension "wxml" (file.fileName?.getD [])⟩
    let above := ((file.relativeTo? s.config.workspace).bind Path.parent?).getD ⟨[]⟩
    (dir.join above).join name

/-- What a run has done so far. -/
structure Progress (σ : Type) where
  files : σ
  messages : List Report.Message
  converted : Nat
  failed : Nat

namespace Progress

/-- After a file that was converted. -/
def succeed (p : Progress σ) (files : σ) (messages : List Report.Message) : Progress σ :=
  { p with files, messages := p.messages ++ messages, converted := p.converted + 1 }

/-- After a file that was not. -/
def fail (p : Progress σ) (files : σ) (messages : List Report.Message) : Progress σ :=
  { p with files, messages := p.messages ++ messages, failed := p.failed + 1 }

end Progress

/-- The output lines of a file's markup, below its name if there are many files. -/
def printed (many : Bool) (file : Path) (markup : Text) : List Report.Message :=
  (if many then [.out ("<!-- " ++ file.text ++ " -->")] else []) ++ [.out markup]

/-- Writes or prints the markup of a file, or reports why there is none. -/
def finish (s : Session) (many : Bool) (p : Progress σ) (file : Path)
    (result : Except Conversion.Fault Text) : Progress σ :=
  match result with
  | .error fault =>
    let source := (FileSystem.readText p.files file).toOption
    p.fail p.files (Report.failure s.style file fault source)
  | .ok markup =>
    if s.line.stdout then
      p.succeed p.files (printed many file markup ++ Report.converted s.style file none)
    else
      let target := s.outputPath file
      match FileSystem.save p.files target markup with
      | (files, none) => p.succeed files (Report.converted s.style file (some target))
      | (files, some cause) => p.fail files (Report.writeFailure s.style target cause)

/-- Writes or prints all results. -/
def finishAll (s : Session) (many : Bool) :
    Progress σ → List (Path × Except Conversion.Fault Text) → Progress σ
  | p, [] => p
  | p, (file, result) :: results => s.finishAll many (s.finish many p file result) results

/-- What a run came to. -/
structure Result (σ : Type) where
  counts : Report.Counts
  messages : List Report.Message
  files : σ

/-- Converts some files; the run takes this many milliseconds. -/
def convertFiles (s : Session) (files : σ) (milliseconds : Nat) (found : List Path) : Result σ :=
  let results := found.map fun file => (file, s.convert files file)
  let p := s.finishAll (1 < found.length) ⟨files, [], 0, 0⟩ results
  let counts : Report.Counts := ⟨found.length, p.converted, p.failed⟩
  let timing := if s.line.timings then Report.timing milliseconds else []
  ⟨counts, p.messages ++ timing ++ Report.summary s.style counts milliseconds, p.files⟩

/-- Whether the program stops while it converts a file. -/
def aborts (s : Session) (files : σ) (file : Path) : Bool :=
  match s.convert files file with
  | .error fault => fault.isAbort
  | .ok _ => false

/-- Converts everything once.  All files are converted before anything is written. -/
def run (s : Session) (files : σ) (milliseconds : Nat) : Except Fault (Result σ) :=
  match s.discover files with
  | .error fault => .error fault
  | .ok found =>
    match found.find? (s.aborts files) with
    | some file => .error (.aborted file)
    | none => .ok (s.convertFiles files milliseconds found)

end Session

end Wxml
