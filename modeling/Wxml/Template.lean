import Wxml.Attribute
import Wxml.VoidTag

/-!
# Templates

A template is a tree of elements, interpolated expressions, text and comments.  Directive attributes
stand in it as written; what they mean is decided when the tree is rendered.
-/

namespace Wxml

/-- The tag of an element: its name, its attributes with distinct keys, and whether it was written
self-closing.  `span` covers the whole element, `tagSpan` the name. -/
structure Element where
  tag : Text
  attributes : List Attribute
  selfClosing : Bool
  span : Span
  tagSpan : Span
  deriving DecidableEq, Repr

/-- A node of a template. -/
inductive Node where
  | element (head : Element) (children : List Node)
  /-- An interpolation, without its braces. -/
  | expression (raw : Text) (span : Span)
  | text (content : Text) (span : Span)
  /-- A comment, without its delimiters. -/
  | comment (content : Text) (span : Span)
  deriving Inhabited, Repr

namespace Element

/-- An element of a name that stands nowhere and has no attributes yet. -/
def ofTag (tag : Text) : Element := ⟨tag, [], false, .empty 0, .empty 0⟩

/-- The element with one attribute set. -/
def setAttribute (e : Element) (key : Text) (value : Option Text) : Element :=
  { e with attributes := Attribute.set key value e.attributes }

/-- The value of an attribute; a flag has the empty one. -/
def attribute? (e : Element) (key : Text) : Option Text :=
  (Attribute.find? key e.attributes).map fun a => a.value.getD []

/-- Whether there is an attribute with a key. -/
def hasAttribute (e : Element) (key : Text) : Bool := (Attribute.find? key e.attributes).isSome

end Element

/-- Where a node stands. -/
def Node.span : Node → Span
  | element head _ => head.span
  | expression _ span => span
  | text _ span => span
  | comment _ span => span

namespace Template

/-- Whether a tag names an element that never has content, in any case of its letters. -/
def isVoid (tag : Text) : Bool := VoidTag.html.contains (Text.lower tag)

/-- Whether a tag names an element whose content is taken as it stands, in any case of its
letters. -/
def isRawText (tag : Text) : Bool :=
  Text.lower tag == ("script" : Text) || Text.lower tag == ("style" : Text)

/-- Why a text is not a template. -/
inductive Fault where
  | unclosedElement (tag : Text) (span : Span)
  /-- A closing tag that does not close the innermost open element. -/
  | mismatchedClosingTag (expected : Option Text) (found : Text) (span : Span)
  | unterminatedComment (span : Span)
  | unterminatedInterpolation (span : Span)
  | inTag (fault : Attribute.Fault)
  | severalRoots (span : Span)
  | textOutsideRoot (span : Span)
  | noRoot (span : Span)
  /-- The text at a span cannot be cut out of the source: the program stops. -/
  | aborted (span : Span)
  deriving DecidableEq, Repr

namespace Fault

def span : Fault → Span
  | unclosedElement _ span => span
  | mismatchedClosingTag _ _ span => span
  | unterminatedComment span => span
  | unterminatedInterpolation span => span
  | inTag (.unterminated u) => u.span
  | inTag (.duplicate _ span) => span
  | severalRoots span => span
  | textOutsideRoot span => span
  | noRoot span => span
  | aborted span => span

def code : Fault → Text
  | unclosedElement _ _ => "unclosed-element"
  | mismatchedClosingTag _ _ _ => "mismatched-closing-tag"
  | unterminatedComment _ => "unterminated-comment"
  | unterminatedInterpolation _ => "unterminated-interpolation"
  | inTag (.unterminated _) => "unterminated-attribute"
  | inTag (.duplicate _ _) => "duplicate-attribute"
  | severalRoots _ => "invalid-root"
  | textOutsideRoot _ => "invalid-root"
  | noRoot _ => "invalid-root"
  | aborted _ => "aborted"

def message : Fault → Text
  | unclosedElement tag _ => "Element <" ++ tag ++ "> is missing its closing tag"
  | mismatchedClosingTag (some tag) found _ =>
    "Expected </" ++ tag ++ ">, found </" ++ found ++ ">"
  | mismatchedClosingTag none found _ => "Unexpected closing tag </" ++ found ++ ">"
  | unterminatedComment _ => "Unterminated comment"
  | unterminatedInterpolation _ => "Unterminated interpolation: missing `\x7d\x7d`"
  | inTag (.unterminated u) => "Unterminated value for attribute `" ++ u.key ++ "`"
  | inTag (.duplicate key _) => "Duplicate attribute: " ++ key
  | severalRoots _ => "Component template should contain exactly one root element"
  | textOutsideRoot _ => "Text outside the root element is not allowed"
  | noRoot _ => "Template is empty: expected one root element"
  | aborted _ => "Text cannot be cut out of the template"

end Fault

end Template

end Wxml
