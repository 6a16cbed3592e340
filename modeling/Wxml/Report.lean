import Wxml.CommandLine
import Wxml.Conversion
import Wxml.FileSystem
import Wxml.Json

/-!
# Reports

What a run tells: for people on the error stream, as one JSON object a line, or as lines that
machines take apart at their first four colons.
-/

namespace Wxml

namespace Report

/-- A stretch of the source that a diagnostic points at. -/
structure Label where
  text : Text
  offset : Nat
  length : Nat
  deriving DecidableEq, Repr

/-- A diagnostic for people. -/
structure Diagnostic where
  message : Text
  code : Text
  help : Option Text
  labels : List Label
  causes : List Text
  /-- Whether it can show the source it points at. -/
  hasSource : Bool
  deriving DecidableEq, Repr

/-- Something that is told. -/
inductive Message where
  /-- A line on the output stream. -/
  | out (line : Text)
  /-- A line on the error stream. -/
  | err (line : Text)
  /-- A diagnostic on the error stream. -/
  | diagnostic (diagnostic : Diagnostic)
  deriving DecidableEq, Repr

/-- How things are told. -/
structure Style where
  format : OutputFormat
  verbose : Bool
  deriving DecidableEq, Repr

/-- How many files were found, converted and not converted. -/
structure Counts where
  files : Nat
  converted : Nat
  failed : Nat
  deriving DecidableEq, Repr

/-! ### A file that was converted -/

/-- Tells that a file was converted, and where to if it was written. -/
def converted (style : Style) (file : Path) (written : Option Path) : List Message :=
  match style.format with
  | .human =>
    if style.verbose then
      match written with
      | some target => [.err (file.text ++ " -> " ++ target.text)]
      | none => [.err file.text]
    else []
  | .json =>
    [.out (Json.write (.ofFields [("file", .ofText file.text),
      ("output", .ofOption (fun target => .ofText target.text) written),
      ("type", .ofText "converted")]))]
  | .machine => []

/-! ### A file that was not converted -/

/-- The message of a fault, with its cause unless the message says that already. -/
def messageOf (fault : Conversion.Fault) : Text :=
  match fault.cause? with
  | none => fault.message
  | some cause =>
    if (Text.breakOn cause fault.message).2.isEmpty then fault.message ++ ": " ++ cause
    else fault.message

/-- The line and column of a fault, counted from one. -/
def position? (fault : Conversion.Fault) (source : Option Text) : Option (Nat × Nat) :=
  match fault.span?, source with
  | some span, some t => some ((LineTable.ofText t).position span.start).display
  | _, _ => none

/-- What can be done about a fault. -/
def help? (fault : Conversion.Fault) : Option Text :=
  if fault.code = ("unsupported-tag" : Text) then
    some "only HTML tags with a WXML counterpart can be converted"
  else if fault.code = ("unsupported-expression" : Text) then
    some "move the logic into a computed property"
  else if fault.code = ("missing-template" : Text) then
    some "add a <template> block to the component"
  else none

/-- The diagnostic of a fault.  Without its source the file is named instead. -/
def diagnostic (file : Path) (fault : Conversion.Fault) (source : Option Text) : Diagnostic :=
  match source with
  | some _ =>
    let labels := fault.span?.map fun span => ⟨"here", span.start, span.stop - span.start⟩
    ⟨messageOf fault, fault.code, help? fault, labels.toList, [], true⟩
  | none => ⟨"in " ++ file.text, fault.code, help? fault, [], [messageOf fault], false⟩

/-- The text with a backslash before every colon. -/
def escapeColons (t : Text) : Text := t.flatMap fun c => if c = ':' then ['\\', ':'] else [c]

/-- A line for machines. -/
def machineLine (file : Path) (position : Nat × Nat) (code message : Text) : Text :=
  file.text ++ ":" ++ Json.digits position.1 ++ ":" ++ Json.digits position.2 ++ ":" ++ code ++
    ":" ++ escapeColons message

/-- Tells that a file was not converted; `source` is its text, if it can be read. -/
def failure (style : Style) (file : Path) (fault : Conversion.Fault) (source : Option Text) :
    List Message :=
  match style.format with
  | .human => [.diagnostic (diagnostic file fault source)]
  | .json =>
    let position := position? fault source
    [.out (Json.write (.ofFields [("code", .ofText fault.code),
      ("column", .ofOption (fun p => .ofNat p.2) position), ("file", .ofText file.text),
      ("line", .ofOption (fun p => .ofNat p.1) position), ("message", .ofText (messageOf fault)),
      ("span", .ofOption (fun span =>
        .ofFields [("end", .ofNat span.stop), ("start", .ofNat span.start)]) fault.span?),
      ("type", .ofText "error")]))]
  | .machine =>
    [.out (machineLine file ((position? fault source).getD (0, 0)) fault.code (messageOf fault))]

/-- Tells that a converted file could not be written. -/
def writeFailure (style : Style) (target : Path) (cause : FileSystem.Cause) : List Message :=
  let message := "failed to write " ++ target.text ++ ": " ++ cause.message
  match style.format with
  | .human => [.diagnostic ⟨message, "write-error", none, [], [], false⟩]
  | .json =>
    [.out (Json.write (.ofFields [("code", .ofText "write-error"), ("file", .ofText target.text),
      ("message", .ofText message), ("type", .ofText "error")]))]
  | .machine => [.out (machineLine target (0, 0) "write-error" message)]

/-! ### The whole run -/

/-- A number of files in words. -/
def countFiles (n : Nat) : Text := Json.digits n ++ (if n = 1 then " file" else " files")

/-- Tells the time that a run of this many milliseconds took. -/
def timing (milliseconds : Nat) : List Message :=
  [.err [], .err ("Timing: " ++ Json.digits milliseconds ++ "ms")]

/-- Tells how a run of this many milliseconds went. -/
def summary (style : Style) (counts : Counts) (milliseconds : Nat) : List Message :=
  match style.format with
  | .human =>
    .err [] ::
      if counts.failed = 0 then
        [.err ("\x1b[32m✓\x1b[0m Converted " ++ countFiles counts.converted ++ " (" ++
          Json.digits milliseconds ++ "ms)")]
      else
        [.err ("\x1b[31m✗\x1b[0m " ++ Json.digits counts.failed ++ " of " ++
          countFiles counts.files ++ " failed to convert"),
          .err ("Time: " ++ Json.digits milliseconds ++ "ms")]
  | .json =>
    [.out (Json.write (.ofFields [("converted", .ofNat counts.converted),
      ("duration_ms", .ofNat milliseconds), ("failed", .ofNat counts.failed),
      ("files", .ofNat counts.files), ("type", .ofText "summary")]))]
  | .machine => []

end Report

end Wxml
