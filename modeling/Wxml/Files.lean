import Wxml.FileSystem
import Wxml.Text.Bytes

/-!
# Files as a value

A file system without links in which everything is allowed: which entries there are at which places,
and where one is.  A place is given by the names from the root down, so however a path is written,
from the root, from the working directory or through the directory above it, there is one place that
it leads to.
-/

namespace Wxml

namespace Files

open FileSystem (Cause Kind)

/-- A place: the names from the root down. -/
abbrev Location := List Text

/-- What is at a place. -/
inductive Entry where
  | file (content : Bytes)
  | directory
  deriving DecidableEq, Repr

def Entry.kind : Entry → Kind
  | file _ => .file
  | directory => .directory

/-- The largest size of a name in a directory. -/
def nameLimit : Nat := 255

/-- The largest size of a path. -/
def pathLimit : Nat := 4095

end Files

/-- The files a program sees. -/
structure Files where
  /-- The working directory. -/
  here : Files.Location
  entries : List (Files.Location × Files.Entry)
  deriving DecidableEq, Repr

namespace Files

open FileSystem (Cause Kind)

/-- No files, seen from a directory. -/
def empty (here : Location) : Files := ⟨here, []⟩

/-- Whether a place is a directory without being listed: the working directory, and those above
it. -/
def isGiven (files : Files) (location : Location) : Bool := location.isPrefixOf files.here

/-- What is at a place. -/
def get? (files : Files) (location : Location) : Option Entry :=
  if files.isGiven location then some .directory else files.entries.lookup location

/-- The entries with one of them set. -/
def setEntry (location : Location) (entry : Entry) :
    List (Location × Entry) → List (Location × Entry)
  | [] => [(location, entry)]
  | (l, e) :: entries =>
    if l = location then (l, entry) :: entries else (l, e) :: setEntry location entry entries

/-- The files with an entry set. -/
def insert (files : Files) (location : Location) (entry : Entry) : Files :=
  { files with entries := setEntry location entry files.entries }

/-! ### Following paths -/

/-- The place that segments lead to.  Each one is looked up in a directory. -/
def follow (files : Files) : Location → List Text → Except Cause Location
  | location, [] => .ok location
  | location, segment :: segments =>
    match files.get? location with
    | none => .error .notFound
    | some (.file _) => .error .notDirectory
    | some .directory =>
      if Path.isSilent segment then follow files location segments
      else if segment = (".." : Text) then follow files location.dropLast segments
      else if nameLimit < Text.size segment then .error .nameTooLong
      else follow files (location ++ [segment]) segments

/-- Where a path starts. -/
def startAt (files : Files) : Path.Anchor → Location
  | .relative => files.here
  | .current => files.here
  | .absolute => []

/-- The place of a path, which need not hold anything. -/
def locate (files : Files) (p : Path) : Except Cause Location :=
  if p.text.isEmpty then .error .notFound
  else if p.text.contains '\x00' then .error .nullInPath
  else if pathLimit < Text.size p.text then .error .nameTooLong
  else follow files (files.startAt p.split.1) p.split.2

/-- What is at a path. -/
def lookup (files : Files) (p : Path) : Except Cause Entry :=
  match files.locate p with
  | .error cause => .error cause
  | .ok location =>
    match files.get? location with
    | some entry => .ok entry
    | none => .error .notFound

def kind? (files : Files) (p : Path) : Option Kind := (files.lookup p).toOption.map Entry.kind

/-! ### Reading and writing -/

/-- The text of a file. -/
def readText (files : Files) (p : Path) : Except Cause Text :=
  match files.lookup p with
  | .error cause => .error cause
  | .ok .directory => .error .isDirectory
  | .ok (.file content) =>
    match Text.ofBytes? content with
    | some t => .ok t
    | none => .error .notText

/-- Writes a text to a file, which need not be there yet. -/
def writeText (files : Files) (p : Path) (t : Text) : Files × Option Cause :=
  match files.locate p with
  | .error cause => (files, some cause)
  | .ok location =>
    match files.get? location with
    | some .directory => (files, some .isDirectory)
    | _ => (files.insert location (.file (Text.bytes t)), none)

/-- Makes one directory. -/
def makeDirectory (files : Files) (p : Path) : Except Cause Files :=
  match files.locate p with
  | .error cause => .error cause
  | .ok location =>
    match files.get? location with
    | some _ => .error .alreadyExists
    | none => .ok (files.insert location .directory)

/-! ### Going through directories -/

/-- The working directory and those above it. -/
def given (files : Files) : List Location :=
  (List.range (files.here.length + 1)).map files.here.take

/-- All places that hold something, each once. -/
def places (files : Files) : List Location :=
  files.entries.foldr (fun entry places => places.insert entry.1) files.given

/-- The names that lead from one place to another below it. -/
def below? : (base location : Location) → Option Location
  | [], names => if names.isEmpty then none else some names
  | _ :: _, [] => none
  | n :: base, m :: location => if n = m then below? base location else none

/-- The names that lead to a place below a directory, if a path can be made of them that leads
somewhere. -/
def walked? (files : Files) (root : Path) (base location : Location) :
    Option (List Text × Kind) :=
  match below? base location with
  | none => none
  | some names =>
    if names.all Path.isName then
      (files.kind? (root.descend names)).map fun kind => (names, kind)
    else none

/-- What is below a path. -/
def below (files : Files) (root : Path) : List (List Text × Kind) :=
  match files.locate root with
  | .error _ => []
  | .ok base => files.places.filterMap (files.walked? root base)

instance : FileSystem Files := ⟨kind?, readText, makeDirectory, writeText, below⟩

/-! ### Listings -/

/-- The files with one more entry, and the directories it is in. -/
def addListed (files : Files) (location : Location) (entry : Entry) : Files :=
  let directories := (List.range location.length).map fun n => location.take n
  let files := directories.foldl
    (fun files d => if (files.get? d).isSome then files else files.insert d .directory) files
  files.insert location entry

/-- The files that are new or have another content, with that. -/
def changes (before after : Files) : List (Location × Bytes) :=
  after.entries.filterMap fun (location, entry) =>
    match entry with
    | .directory => none
    | .file content => if before.get? location = some entry then none else some (location, content)

/-- The new and changed files below the working directory that hold text, as seen from there. -/
def changedTexts (before after : Files) : List (Location × Text) :=
  (changes before after).filterMap fun (location, content) =>
    match below? before.here location with
    | none => none
    | some names => (Text.ofBytes? content).map fun t => (names, t)

/-- The place that a path names, whatever is there. -/
def place (files : Files) (p : Path) : Location :=
  p.split.2.foldl
    (fun location segment =>
      if Path.isSilent segment then location
      else if segment = (".." : Text) then location.dropLast
      else location ++ [segment])
    (files.startAt p.split.1)

/-- The path of a place. -/
def pathOf (location : Location) : Path := .ofSegments .absolute location

end Files

end Wxml
