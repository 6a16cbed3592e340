import Wxml.Property
import Wxml.Vocabulary

/-!
# From directives to properties

Each kind of directive has one rule (`Directive.convert`), which adds properties to those of its
element or says why it cannot.  `Properties.ofAttributes` applies them in the order the attributes
are written.
-/

namespace Wxml

namespace Directive

open Rendering (Fault)

/-- Refuses any modifier. -/
def rejectModifiers (d : Directive) : Except Fault Unit :=
  match d.modifiers with
  | [] => .ok ()
  | modifier :: _ => .error (.modifier d.key modifier d.span)

/-- The value of a directive that needs one. -/
def requireValue (d : Directive) : Except Fault Text :=
  match d.value with
  | some value => .ok value
  | none => .error (.expression d.key .missingValue d.span)

/-- The expression of a directive that takes one and no modifiers. -/
def requireExpression (d : Directive) : Except Fault Text := do
  d.rejectModifiers
  let value ← d.requireValue
  Rendering.rejectFilter value d.span
  return value

/-- A property bound to an expression. -/
def binding (name expression : Text) : Property := ⟨name, some (interpolate expression), true⟩

/-- A property with a fixed value. -/
def fixed (name value : Text) : Property := ⟨name, some value, false⟩

def convertBind (d : Directive) (ps : Properties) : Except Fault Properties := do
  d.rejectModifiers
  let value ← d.requireValue
  match Text.trimStart value with
  | '\x7b' :: _ => .error (.expression value .objectOrArray d.span)
  | '[' :: _ => .error (.expression value .objectOrArray d.span)
  | _ =>
    Rendering.rejectFilter value d.span
    ps.insert d (binding d.name value)

/-- How an event is caught. -/
structure Listening where
  stop : Bool
  capture : Bool
  deriving DecidableEq, Repr

/-- How an event is caught by the modifiers of a directive. -/
def listening (d : Directive) (soFar : Listening) : List Text → Except Fault Listening
  | [] => .ok soFar
  | modifier :: modifiers =>
    if modifier = ("stop" : Text) then d.listening { soFar with stop := true } modifiers
    else if modifier = ("capture" : Text) then
      d.listening { soFar with capture := true } modifiers
    else .error (.modifier d.key modifier d.span)

/-- The mark before an event name. -/
def Listening.mark : Listening → Text
  | ⟨false, false⟩ => "bind:"
  | ⟨true, false⟩ => "catch:"
  | ⟨false, true⟩ => "capture-bind:"
  | ⟨true, true⟩ => "capture-catch:"

def convertOn (d : Directive) (ps : Properties) : Except Fault Properties :=
  match Vocabulary.event? d.name with
  | none => .error (.event d.name d.span)
  | some event =>
    match d.listening ⟨false, false⟩ d.modifiers with
    | .error fault => .error fault
    | .ok listening =>
      match d.value with
      | none => .error (.expression d.key .missingHandler d.span)
      | some handler => ps.insert d (fixed (listening.mark ++ event) handler)

def convertText (d : Directive) (ps : Properties) : Except Fault Properties := do
  let value ← d.requireExpression
  return { ps with inserted := some (interpolate value) }

def convertCondition (name : Text) (d : Directive) (ps : Properties) :
    Except Fault Properties := do
  let value ← d.requireExpression
  ps.insert d (binding name value)

def convertOtherwise (d : Directive) (ps : Properties) : Except Fault Properties := do
  d.rejectModifiers
  ps.insert d ⟨"wx:else", none, false⟩

/-- The loop of an element: that of its attribute `v-for`, whether well formed or not. -/
def loop? (as : List Attribute) : Option (Except Fault Loop) :=
  (Attribute.find? "v-for" as).map fun a => Rendering.loop (a.value.getD []) a.span

def convertLoop (loop : Option (Except Fault Loop)) (d : Directive) (ps : Properties) :
    Except Fault Properties := do
  d.rejectModifiers
  match loop with
  | none => .error (.expression (d.value.getD []) .loopForm d.span)
  | some (.error fault) => .error fault
  | some (.ok loop) =>
    let ps ← ps.insert d (binding "wx:for" loop.source)
    let ps ← ps.insert d (fixed "wx:for-item" loop.item)
    match loop.index with
    | none => return ps
    | some index => ps.insert d (fixed "wx:for-index" index)

/-- What a loop key is called: the item itself, or a property of the item. -/
def keyName? (item expression : Text) : Option Text :=
  if expression = item then some "*this"
  else
    match Text.after? (item ++ ".") expression with
    | some property => if Expression.isIdentifier property then some property else none
    | none => none

/-- A key beside a malformed loop is passed over: the loop is refused where it stands. -/
def convertKey (loop : Option (Except Fault Loop)) (d : Directive) (ps : Properties) :
    Except Fault Properties := do
  d.rejectModifiers
  let value ← d.requireValue
  match loop with
  | some (.ok loop) =>
    match keyName? loop.item (Text.trim value) with
    | some key => ps.insert d (fixed "wx:key" key)
    | none => .error (.expression value (.keyForm loop.item) d.span)
  | _ => return ps

/-- Why a directive without a counterpart has none. -/
def unsupportedReason (d : Directive) : Rendering.DirectiveReason :=
  let name := d.name.takeWhile (!endsName ·)
  if name = ("model" : Text) then .twoWay
  else if name = ("pre" : Text) || name = ("cloak" : Text) || name = ("once" : Text) then
    .compileTime
  else if name = ("slot" : Text) then .slot
  else if name = ("bind" : Text) || name = ("on" : Text) then .objectArgument
  else
    match name.head? with
    | some '#' => .slot
    | some '[' => .dynamicArgument
    | _ => .noCounterpart

/-- Adds what a directive sets, on an element with this loop. -/
def convert (loop : Option (Except Fault Loop)) (d : Directive) (ps : Properties) :
    Except Fault Properties :=
  match d.kind with
  | .bind => d.convertBind ps
  | .on => d.convertOn ps
  | .text => d.convertText ps
  | .html => .error (.directive d.key .rawHtml d.span)
  | .when => d.convertCondition "wx:if" ps
  | .elseWhen => d.convertCondition "wx:elif" ps
  | .otherwise => d.convertOtherwise ps
  | .loop => d.convertLoop loop ps
  | .key => d.convertKey loop ps
  | .unsupported => .error (.directive d.key d.unsupportedReason d.span)
  | .literal => ps.insert d ⟨d.key, d.value, false⟩

/-- The directive an attribute is on an element that has a loop or not: a bound `key` counts as a
loop key only beside a loop. -/
def ofAttributeIn (hasLoop : Bool) (a : Attribute) : Directive :=
  let d := ofAttribute a
  if d.kind = .bind && d.name = ("key" : Text) && hasLoop then { d with kind := .key } else d

end Directive

namespace Properties

open Rendering (Fault)

/-- Adds what some attributes of an element with this loop set, in their order. -/
def addAll (loop : Option (Except Fault Loop)) :
    List Attribute → Properties → Except Fault Properties
  | [], ps => .ok ps
  | a :: as, ps =>
    match (Directive.ofAttributeIn loop.isSome a).convert loop ps with
    | .error fault => .error fault
    | .ok ps => addAll loop as ps

/-- The properties that the attributes of an element become. -/
def ofAttributes (as : List Attribute) : Except Fault Properties :=
  addAll (Directive.loop? as) as empty

end Properties

end Wxml
