import Wxml.Attribute

/-!
# Directives

The key of an attribute says what kind of directive it is.  `Directive.ofAttribute` takes a key
apart: the kind, the name it is about, and the modifiers after it.
-/

namespace Wxml

namespace Directive

/-- What an attribute is for. -/
inductive Kind where
  /-- `:name` or `v-bind:name`. -/
  | bind
  /-- `@event` or `v-on:event`. -/
  | on
  | text
  | html
  /-- `v-if`. -/
  | when
  /-- `v-else-if`. -/
  | elseWhen
  /-- `v-else`. -/
  | otherwise
  /-- `v-for`. -/
  | loop
  /-- A bound `key` beside a `v-for`. -/
  | key
  /-- A directive that is known and has no counterpart. -/
  | unsupported
  /-- Any other attribute. -/
  | literal
  deriving DecidableEq, Repr

end Directive

/-- An attribute with its key taken apart.  `name` is what the directive is about, without the mark
in front and the modifiers behind. -/
structure Directive where
  key : Text
  kind : Directive.Kind
  name : Text
  modifiers : List Text
  value : Option Text
  span : Span
  deriving DecidableEq, Repr

namespace Directive

/-- The kind of a directive without an argument of its own. -/
def kindOfName (name : Text) : Kind :=
  if name = ("text" : Text) then .text
  else if name = ("html" : Text) then .html
  else if name = ("if" : Text) then .when
  else if name = ("else-if" : Text) then .elseWhen
  else if name = ("else" : Text) then .otherwise
  else if name = ("for" : Text) then .loop
  else if name = ("model" : Text) || name = ("pre" : Text) || name = ("cloak" : Text) ||
      name = ("once" : Text) || name = ("slot" : Text) then .unsupported
  else .literal

/-- Whether a character ends the name of a directive. -/
def endsName (c : Char) : Bool := c == ':' || c == '.'

/-- The kind of a directive written `v-`, and what its name and modifiers are read from. -/
def classifyLong (key directive : Text) : Kind × Text :=
  let name := directive.takeWhile (!endsName ·)
  if name = ("bind" : Text) || name = ("on" : Text) then
    match directive.dropWhile (!endsName ·) with
    | ':' :: argument => (if name = ("bind" : Text) then .bind else .on, argument)
    | _ => (.unsupported, directive)
  else
    match kindOfName name with
    | .literal => (.literal, key)
    | kind => (kind, directive)

/-- The kind a key names, and what its name and modifiers are read from. -/
def classify : Text → Kind × Text
  | ':' :: argument => (.bind, argument)
  | '@' :: argument => (.on, argument)
  | '#' :: rest => (.unsupported, '#' :: rest)
  | 'v' :: '-' :: directive => classifyLong ('v' :: '-' :: directive) directive
  | key => (.literal, key)

/-- The name and the modifiers, which dots divide.  A dynamic argument has no modifiers. -/
def splitModifiers (t : Text) : Text × List Text :=
  if t.head? = some '[' then (t, [])
  else
    match Text.splitOn '.' t with
    | [] => ([], [])
    | name :: modifiers => (name, modifiers)

/-- Whether a name can be bound: it is there and not computed. -/
def isStaticName (name : Text) : Bool := !name.isEmpty && name.head? != some '['

/-- The attribute with its key taken apart. -/
def ofAttribute (a : Attribute) : Directive :=
  let (kind, rest) := classify a.key
  let (name, modifiers) := if kind = .literal then (a.key, []) else splitModifiers rest
  let kind :=
    if (kind = .bind || kind = .on) && !isStaticName name then .unsupported else kind
  ⟨a.key, kind, name, modifiers, a.value, a.span⟩

end Directive

end Wxml
