import Wxml.Attribute

/-!
# Single-file components

A `Component` is a file made of top-level blocks: at most one template and one script, any number of
styles and of blocks of other names, and comments between them.  Text between the blocks does not
count.
-/

namespace Wxml

/-- A comment between the blocks of a component, without its delimiters. -/
structure Comment where
  content : Text
  span : Span
  deriving DecidableEq, Repr

/-- A top-level block.  Its name is in small letters; `span` covers its tags, `contentSpan` only
what is between them. -/
structure Block where
  name : Text
  attributes : List Attribute
  content : Text
  contentSpan : Span
  span : Span
  deriving DecidableEq, Repr

namespace Block

/-- The first attribute of a name, up to ASCII case. -/
def find? (b : Block) (key : Text) : Option Attribute :=
  b.attributes.find? fun a => Text.sameIgnoringCase a.key key

/-- The value of the first attribute of a name; a flag has none. -/
def attribute? (b : Block) (key : Text) : Option Text := (b.find? key).bind (·.value)

/-- Whether there is an attribute of a name, with or without a value. -/
def hasAttribute (b : Block) (key : Text) : Bool := (b.find? key).isSome

/-- The language a block is written in, if it says so. -/
def lang? (b : Block) : Option Text := b.attribute? "lang"

/-- Whether a style applies to its component only. -/
def isScoped (b : Block) : Bool := b.hasAttribute "scoped"

end Block

/-- A single-file component, with its blocks sorted by what they are for. -/
structure Component where
  template : Option Block
  script : Option Block
  styles : List Block
  custom : List Block
  comments : List Comment
  deriving DecidableEq, Repr

namespace Component

/-- The component without any block. -/
def empty : Component := ⟨none, none, [], [], []⟩

/-- What stands at the top level of a component. -/
inductive Item where
  | comment (comment : Comment)
  | block (block : Block)
  deriving DecidableEq, Repr

/-- Why a text is not a component. -/
inductive Fault where
  /-- A block that is never closed; the span is that of its opening tag. -/
  | unclosed (name : Text) (span : Span)
  /-- A second template or script. -/
  | duplicate (name : Text) (span : Span)
  | unterminatedComment (span : Span)
  | unterminatedValue (value : Attribute.Unterminated)
  deriving DecidableEq, Repr

namespace Fault

def span : Fault → Span
  | unclosed _ span => span
  | duplicate _ span => span
  | unterminatedComment span => span
  | unterminatedValue value => value.span

def code : Fault → Text
  | unclosed _ _ => "unclosed-tag"
  | duplicate _ _ => "duplicate-block"
  | unterminatedComment _ => "syntax-error"
  | unterminatedValue _ => "syntax-error"

def message : Fault → Text
  | unclosed name _ => "Unclosed tag: <" ++ name ++ ">"
  | duplicate name _ => "Duplicate " ++ name ++ " block"
  | unterminatedComment _ => "Unterminated comment"
  | unterminatedValue value => "Unterminated value for attribute `" ++ value.key ++ "`"

end Fault

/-- The component with one more item at its end. -/
def add (component : Component) : Item → Except Fault Component
  | .comment comment => .ok { component with comments := component.comments ++ [comment] }
  | .block block =>
    if block.name = ("template" : Text) then
      if component.template.isSome then .error (.duplicate block.name block.span)
      else .ok { component with template := some block }
    else if block.name = ("script" : Text) then
      if component.script.isSome then .error (.duplicate block.name block.span)
      else .ok { component with script := some block }
    else if block.name = ("style" : Text) then
      .ok { component with styles := component.styles ++ [block] }
    else .ok { component with custom := component.custom ++ [block] }

end Component

end Wxml
