import Wxml.Directive
import Wxml.Rendering.Fault

/-!
# Properties

The attributes of a WXML tag are called properties here.  A name is set at most once; only a static
class or style and its bound form go together, into one value with the static part first
(`Properties.insert`).
-/

namespace Wxml

/-- An attribute of a WXML tag.  A flag has no value; `bound` says that the value comes from a
binding. -/
structure Property where
  name : Text
  value : Option Text
  bound : Bool
  deriving DecidableEq, Repr

/-- The properties of a tag in the order they are written, and the content put right after the
tag. -/
structure Properties where
  list : List Property
  inserted : Option Text
  deriving DecidableEq, Repr

namespace Property

/-- The quote character a value is written in. -/
def quote (value : Text) : Char := if value.contains '"' then '\'' else '"'

/-- The property as it is written, after a space. -/
def markup (p : Property) : Text :=
  match p.value with
  | none => ' ' :: p.name
  | some value => ' ' :: p.name ++ ('=' :: quote value :: value) ++ [quote value]

/-- What stands between the static and the bound part of a value, for the names that have both. -/
def separator? (name : Text) : Option Text :=
  if name = ("class" : Text) then some " "
  else if name = ("style" : Text) then some "; "
  else none

/-- The static part of a value that a bound part follows: a style loses the semicolons at its
end. -/
def staticPart (name value : Text) : Text :=
  if name = ("style" : Text) then Text.dropEndWhile (· == ';') (Text.trimEnd value) else value

/-- Two properties of one name as one, if one is static and the other bound and the name allows
it. -/
def merge? (p q : Property) : Option Property :=
  match separator? p.name, p.value, q.value with
  | some separator, some v, some w =>
    if p.bound = q.bound then none
    else if p.bound then some ⟨p.name, some (staticPart p.name w ++ separator ++ v), true⟩
    else some ⟨p.name, some (staticPart p.name v ++ separator ++ w), true⟩
  | _, _, _ => none

/-- The list with a property added: at its end, or merged with the one of its name. -/
def add? (q : Property) : List Property → Option (List Property)
  | [] => some [q]
  | p :: ps =>
    if p.name = q.name then (p.merge? q).map (· :: ps) else (add? q ps).map (p :: ·)

end Property

namespace Properties

def empty : Properties := ⟨[], none⟩

/-- The properties as they are written. -/
def markup (ps : Properties) : Text := ps.list.flatMap Property.markup

/-- Adds the property that a directive sets. -/
def insert (ps : Properties) (d : Directive) (p : Property) :
    Except Rendering.Fault Properties :=
  match Property.add? p ps.list with
  | some list => .ok { ps with list }
  | none => .error (.directive d.key (.alreadySet p.name) d.span)

end Properties

/-- An expression as WXML interpolates it. -/
def interpolate (e : Text) : Text := "\x7b\x7b" ++ e ++ "\x7d\x7d"

end Wxml
