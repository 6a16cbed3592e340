import Wxml.Path

/-!
# File systems

What a program asks of the files around it.  A `FileSystem` says what a path leads to, reads and
writes texts, makes directories, and comes across what is below one.  Which links there are and who
may do what is its own affair; why it could not do something, it says in a `FileSystem.Cause`.
-/

namespace Wxml

namespace FileSystem

/-- Why something could not be done with a file. -/
inductive Cause where
  | notFound
  | denied
  | alreadyExists
  | notDirectory
  | isDirectory
  | nameTooLong
  /-- A path with a null character. -/
  | nullInPath
  | notText
  /-- Whatever else can go wrong. -/
  | other (message : Text)
  deriving DecidableEq, Repr

def Cause.message : Cause → Text
  | notFound => "No such file or directory (os error 2)"
  | denied => "Permission denied (os error 13)"
  | alreadyExists => "File exists (os error 17)"
  | notDirectory => "Not a directory (os error 20)"
  | isDirectory => "Is a directory (os error 21)"
  | nameTooLong => "File name too long (os error 36)"
  | nullInPath => "file name contained an unexpected NUL byte"
  | notText => "stream did not contain valid UTF-8"
  | other message => message

/-- What a path can lead to. -/
inductive Kind where
  | file
  | directory
  /-- A pipe, say, or a device. -/
  | other
  deriving DecidableEq, Repr

end FileSystem

/-- What a program can ask of the files around it, whose state is a `σ`. -/
class FileSystem (σ : Type) where
  /-- What a path leads to, if it leads anywhere.  Links are followed. -/
  kind? : σ → Path → Option FileSystem.Kind
  /-- The text of a file. -/
  readText : σ → Path → Except FileSystem.Cause Text
  /-- Makes one directory. -/
  makeDirectory : σ → Path → Except FileSystem.Cause σ
  /-- Writes a text to a file, which need not be there yet.  Where that fails halfway, the file can
  be left with another content. -/
  writeText : σ → Path → Text → σ × Option FileSystem.Cause
  /-- What a walk comes across below a path: the names from there down, and what they lead to. -/
  below : σ → Path → List (List Text × FileSystem.Kind)

namespace FileSystem

variable {σ : Type} [FileSystem σ]

def isFile (files : σ) (p : Path) : Bool := kind? files p == some .file

def isDirectory (files : σ) (p : Path) : Bool := kind? files p == some .directory

/-- What a walk from a path comes across: the path itself, and what is below it. -/
def walk (files : σ) (root : Path) : List (Path × Kind) :=
  (kind? files root).toList.map (fun kind => (root, kind)) ++
    (below files root).map fun entry => (root.descend entry.1, entry.2)

/-! ### Making directories -/

/-- Makes a directory, or accepts one that is there already. -/
def ensureDirectory (files : σ) (p : Path) : σ × Option Cause :=
  match makeDirectory files p with
  | .ok files => (files, none)
  | .error cause => if isDirectory files p then (files, none) else (files, some cause)

/-- Makes the directory with this start and these segments, the last first, and those above it that
are missing.  Those that were made before something fails stay. -/
def ensureSegments (files : σ) (anchor : Path.Anchor) (segments : List Text) : σ × Option Cause :=
  let p := Path.ofSegments anchor segments.reverse
  if p.text.isEmpty then (files, none)
  else
    match makeDirectory files p with
    | .ok files => (files, none)
    | .error .notFound =>
      match _h : Path.parentSegments? anchor segments with
      | none => (files, some (.other "failed to create whole tree"))
      | some (above, before) =>
        match ensureSegments files above before with
        | (files, none) => ensureDirectory files p
        | (files, some cause) => (files, some cause)
    | .error cause => if isDirectory files p then (files, none) else (files, some cause)
termination_by segments.length + anchor.components.length
decreasing_by exact Path.length_lt_of_parentSegments? _h

/-- Makes a directory and those above it that are missing. -/
def ensureDirectories (files : σ) (p : Path) : σ × Option Cause :=
  ensureSegments files p.split.1 p.split.2.reverse

/-- Writes a text to a file, and makes the directories it is in. -/
def save (files : σ) (p : Path) (t : Text) : σ × Option Cause :=
  match p.parent? with
  | none => writeText files p t
  | some parent =>
    match ensureDirectories files parent with
    | (files, none) => writeText files p t
    | (files, some cause) => (files, some cause)

end FileSystem

end Wxml
