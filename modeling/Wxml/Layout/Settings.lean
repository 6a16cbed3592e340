import Wxml.Json.Record
import Wxml.Layout.Options

/-!
# Layout options in JSON

The nine options as a record in JSON, each optional.
-/

namespace Wxml

namespace Layout

/-- The way of indenting scripts that a name stands for. -/
def ScriptIndent.ofName? (name : Text) : Option ScriptIndent :=
  if name = ("keep" : Text) then some .keep
  else if name = ("separate" : Text) then some .separate
  else if name = ("normal" : Text) then some .normal
  else none

def ScriptIndent.name : ScriptIndent → Text
  | keep => "keep"
  | separate => "separate"
  | normal => "normal"

/-- A way of indenting scripts: its name, or an object with its name as the only key and null. -/
def ScriptIndent.ofJson? : Json → Option ScriptIndent
  | .string (some name) => ofName? name
  | .object [(some name, .null)] => ofName? name
  | _ => none

namespace Options

/-- The names of the options in order. -/
def keys : List Text :=
  ["indent_size", "indent_char", "indent_with_tabs", "preserve_newlines", "max_preserve_newlines",
    "indent_scripts", "unformatted", "end_with_newline", "eol"]

/-- The options that a record gives; those it leaves out have their defaults. -/
def ofJson? (j : Json) : Option Options :=
  match j.record? keys with
  | some [size, char, tabs, preserve, most, scripts, unformatted, newline, eol] => do
    let d := default
    let size ← Json.field? d.indentSize Json.size? size
    let char ← Json.field? d.indentChar Json.char? char
    let tabs ← Json.field? d.indentWithTabs Json.bool? tabs
    let preserve ← Json.field? d.preserveNewlines Json.bool? preserve
    let most ← Json.field? d.maxPreserveNewlines Json.size? most
    let scripts ← Json.field? d.indentScripts ScriptIndent.ofJson? scripts
    let unformatted ← Json.field? d.unformatted (Json.list? Json.text?) unformatted
    let newline ← Json.field? d.endWithNewline Json.bool? newline
    let eol ← Json.field? d.eol Json.text? eol
    return ⟨size, char, tabs, preserve, most, scripts, unformatted, newline, eol⟩
  | _ => none

/-- All nine options. -/
def toJson (o : Options) : Json :=
  .ofFields [("indent_size", .ofNat o.indentSize), ("indent_char", .ofText [o.indentChar]),
    ("indent_with_tabs", .bool o.indentWithTabs), ("preserve_newlines", .bool o.preserveNewlines),
    ("max_preserve_newlines", .ofNat o.maxPreserveNewlines),
    ("indent_scripts", .ofText o.indentScripts.name),
    ("unformatted", .array (o.unformatted.map .ofText)),
    ("end_with_newline", .bool o.endWithNewline), ("eol", .ofText o.eol)]

end Options

end Layout

end Wxml
