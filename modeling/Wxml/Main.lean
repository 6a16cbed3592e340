import Wxml.Files
import Wxml.Program

/-!
# The command

Reads the files that a command line is about, lets the program work on them, and puts what it says
and writes where it belongs.
-/

namespace Wxml

/-- The files with everything at a place. -/
partial def Files.load (files : Files) (location : Files.Location) : IO Files := do
  let path := (← IO.currentDir) / String.ofList (Files.pathOf location).text
  if ← path.isDir then
    let mut files := files
    if !files.isGiven location then files := files.addListed location .directory
    for entry in ← path.readDir do
      files ← files.load (location ++ [entry.fileName.toList])
    return files
  else if ← path.pathExists then
    return files.addListed location (.file (← IO.FS.readBinFile path).toList)
  else return files

/-- The files that a command line is about, seen from the working directory. -/
def Files.loadFor (line : CommandLine) (here : Path) : IO Files := do
  let workspace := line.workspace.getD here
  let paths := workspace :: line.config.toList ++ line.paths.map workspace.join
  let mut files := Files.empty ((Files.empty []).place here)
  for p in paths do
    files ← files.load (files.place p)
  return files

/-- Writes a file, and makes the directories it is in. -/
def Files.store (location : Files.Location) (content : Bytes) : IO Unit := do
  IO.FS.createDirAll (String.ofList (Files.pathOf location.dropLast).text)
  IO.FS.writeBinFile (String.ofList (Files.pathOf location).text) ⟨content.toArray⟩

/-- Shows a diagnostic. -/
def Report.Diagnostic.lines (d : Report.Diagnostic) : List Text :=
  let labelled (label : Text) (lines : List Text) : List Text := lines.map (label ++ ·)
  d.code :: labelled "  × " [d.message] ++ labelled "  ╰─▶ " d.causes ++
    labelled "  help: " d.help.toList

/-- Puts a message on its stream. -/
def Report.Message.show : Report.Message → IO Unit
  | out line => IO.println (String.ofList line)
  | err line => IO.eprintln (String.ofList line)
  | diagnostic d => do
    for line in d.lines do
      IO.eprintln (String.ofList line)

end Wxml

open Wxml in
/-- Runs the program on its words. -/
def main (words : List String) : IO UInt32 := do
  let words := words.map String.toList
  let here : Path := ⟨(← IO.currentDir).toString.toList⟩
  let started ← IO.monoMsNow
  let before ←
    match CommandLine.parse words with
    | .ok line => Files.loadFor line here
    | .error _ => pure (Files.empty [])
  let loaded ← IO.monoMsNow
  let execution := Program.execute before here (loaded - started) words
  for (location, content) in before.changes execution.files do
    Files.store location content
  for message in execution.messages do
    message.show
  return execution.status.toUInt32
