import Wxml.Component.Reader
import Wxml.Layout
import Wxml.Rendering

/-!
# Conversion of a component

`Conversion.ofSource` takes the template of a component, renders it and lays it out.  A
`Conversion.Fault` says what stopped it; its span counts from the start of the file.
-/

namespace Wxml

namespace Conversion

/-- What a conversion depends on. -/
structure Options where
  /-- Whether comments are kept. -/
  comments : Bool
  layout : Layout.Options
  deriving DecidableEq, Repr

/-- Why a file was not converted. -/
inductive Fault where
  /-- It could not be read. -/
  | unreadable (path cause : Text)
  | component (fault : Component.Fault)
  | missingTemplate
  | templateLanguage (lang : Text)
  /-- Its template, which starts at `offset`, was not rendered. -/
  | rendering (fault : Rendering.Fault) (offset : Nat)
  deriving DecidableEq, Repr

namespace Fault

/-- Where in the file the fault is. -/
def span? : Fault → Option Span
  | unreadable _ _ => none
  | component fault => some fault.span
  | missingTemplate => none
  | templateLanguage _ => none
  | rendering fault offset => some (fault.span.shift offset)

def code : Fault → Text
  | unreadable _ _ => "io-error"
  | component _ => "invalid-sfc"
  | missingTemplate => "missing-template"
  | templateLanguage _ => "unsupported-template-lang"
  | rendering fault _ => fault.code

def message : Fault → Text
  | unreadable path _ => "failed to read " ++ path
  | component fault => "invalid single-file component: " ++ fault.message
  | missingTemplate => "no <template> block found"
  | templateLanguage lang =>
    "template language `" ++ lang ++ "` is not supported; only HTML templates can be converted"
  | rendering fault _ => fault.message

/-- Whether the program stops altogether, which it does not tell as the fault of a file. -/
def isAbort : Fault → Bool
  | rendering (.template (.aborted _)) _ => true
  | _ => false

/-- What the system says about it, which is no part of the message. -/
def cause? : Fault → Option Text
  | unreadable _ cause => some cause
  | _ => none

end Fault

/-- The WXML of a template block. -/
def ofTemplate (o : Options) (template : Block) : Except Fault Text :=
  match Rendering.ofSource o.comments template.content with
  | .error fault => .error (.rendering fault template.contentSpan.start)
  | .ok markup => .ok (Layout.format o.layout markup)

/-- The language that a block names, unless its templates are read here. -/
def foreignLanguage? (template : Block) : Option Text :=
  template.lang?.filter fun lang => lang ≠ ("html" : Text)

/-- The WXML of a component. -/
def ofSource (o : Options) (source : Text) : Except Fault Text :=
  match Component.read source with
  | .error fault => .error (.component fault)
  | .ok component =>
    match component.template with
    | none => .error .missingTemplate
    | some template =>
      match foreignLanguage? template with
      | some lang => .error (.templateLanguage lang)
      | none => ofTemplate o template

end Conversion

end Wxml
