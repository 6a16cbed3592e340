import Wxml.CommandLine
import Wxml.Conversion
import Wxml.FileSystem
import Wxml.Glob.Parser
import Wxml.Json.Reader
import Wxml.Layout.Settings

/-!
# Configuration

What a run works with: the settings of the configuration file, as far as there is one, and those of
the command line on top of them.
-/

namespace Wxml

/-- The settings of a configuration file. -/
structure ConfigFile where
  /-- The extensions of the files to convert, with their dots. -/
  extensions : List Text
  ignore : List Text
  /-- Where the converted files go, as seen from the workspace. -/
  outDir : Option Path
  comments : Bool
  layout : Layout.Options
  deriving DecidableEq, Repr

namespace ConfigFile

/-- The settings without a file. -/
def default : ConfigFile := ⟨[".vue"], [], none, true, .default⟩

/-- The name of the file that is looked up in the workspace. -/
def fileName : Path := ⟨"vue2wxml.json"⟩

/-- The names of the settings in order. -/
def keys : List Text := ["extensions", "ignore", "outDir", "comments", "format"]

/-- A path, or null for none. -/
def optionalPath? : Json → Option (Option Path)
  | .null => some none
  | j => j.text?.map fun t => some ⟨t⟩

/-- The settings that a record gives; those it leaves out have their defaults. -/
def ofJson? (j : Json) : Option ConfigFile :=
  match j.record? keys with
  | some [extensions, ignore, outDir, comments, layout] => do
    let d := default
    let extensions ← Json.field? d.extensions (Json.list? Json.text?) extensions
    let ignore ← Json.field? d.ignore (Json.list? Json.text?) ignore
    let outDir ← Json.field? d.outDir optionalPath? outDir
    let comments ← Json.field? d.comments Json.bool? comments
    let layout ← Json.field? d.layout Layout.Options.ofJson? layout
    return ⟨extensions, ignore, outDir, comments, layout⟩
  | _ => none

end ConfigFile

/-- What a run works with. -/
structure Config where
  workspace : Path
  /-- The configuration file that was read. -/
  source : Option Path
  extensions : List Text
  ignore : List Text
  globs : List Glob
  /-- Where the converted files go; without it, beside what they were converted from. -/
  outDir : Option Path
  conversion : Conversion.Options

namespace Config

/-- Why there is no configuration. -/
inductive Fault where
  | unreadable (path : Path)
  | malformed (path : Path)
  | pattern (pattern : Text)
  deriving DecidableEq, Repr

def Fault.message : Fault → Text
  | unreadable path => "Failed to read " ++ path.text
  | malformed path => "Invalid config file " ++ path.text
  | pattern p => "Invalid ignore pattern `" ++ p ++ "`"

/-- What is ignored in any case. -/
def defaultIgnore : List Text := ["**/node_modules/**", "**/.git/**"]

/-- The globs of some patterns, all of which must be well formed. -/
def parseGlobs : List Text → Except Fault (List Glob)
  | [] => .ok []
  | pattern :: patterns =>
    match Glob.parse? pattern with
    | none => .error (.pattern pattern)
    | some glob => (parseGlobs patterns).map (glob :: ·)

variable {σ : Type} [FileSystem σ]

/-- The configuration file to read: the one asked for, or the one in the workspace. -/
def sourcePath? (files : σ) (workspace : Path) (line : CommandLine) : Option Path :=
  match line.config with
  | some p => some p
  | none =>
    let p := workspace.join ConfigFile.fileName
    if FileSystem.isFile files p then some p else none

/-- The settings of a configuration file. -/
def readFile (files : σ) (p : Path) : Except Fault ConfigFile :=
  match FileSystem.readText files p with
  | .error _ => .error (.unreadable p)
  | .ok t =>
    match (Json.read? t).bind ConfigFile.ofJson? with
    | some file => .ok file
    | none => .error (.malformed p)

/-- The configuration that a command line leads to. -/
def load (files : σ) (workspace : Path) (line : CommandLine) : Except Fault Config :=
  let source := sourcePath? files workspace line
  match (source.map (readFile files)).getD (.ok .default) with
  | .error fault => .error fault
  | .ok file =>
    let ignore := defaultIgnore ++ file.ignore ++ line.ignore
    match parseGlobs ignore with
    | .error fault => .error fault
    | .ok globs =>
      .ok {
        workspace, source, ignore, globs
        extensions := file.extensions
        outDir := line.outDir <|> file.outDir.map workspace.join
        conversion := ⟨file.comments && !line.noComments, file.layout⟩ }

/-- The extension of a path as settings write it: with its dot, or nothing. -/
def extensionOf (p : Path) : Text :=
  match p.extension? with
  | some extension => '.' :: extension
  | none => []

/-- Whether a path has one of the extensions to convert. -/
def hasExtension (c : Config) (p : Path) : Bool := c.extensions.contains (extensionOf p)

/-- Whether a path is ignored. -/
def isIgnored (c : Config) (p : Path) : Bool := c.globs.any (·.isMatch p.text)

/-- Whether a path that was come across is to be converted. -/
def shouldProcess (c : Config) (p : Path) : Bool := c.hasExtension p && !c.isIgnored p

end Config

end Wxml
