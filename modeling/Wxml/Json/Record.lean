import Wxml.Json

/-!
# Records in JSON

A record with known fields is written as an object, in which unknown keys do not count and known
ones stand at most once, or as an array of its values in the order of the fields.  A field that is
left out has its default.
-/

namespace Wxml

namespace Json

/-- Whether every key is a text, and no key of `known` is repeated. -/
def wellKeyed (known : List Text) : List (Option Text × Json) → Bool
  | [] => true
  | (none, _) :: _ => false
  | (some key, _) :: fields =>
    !(known.contains key && fields.any (·.1 == some key)) && wellKeyed known fields

/-- The values of the known fields of a record, where they are given. -/
def record? (known : List Text) : Json → Option (List (Option Json))
  | object fields =>
    if wellKeyed known fields then
      some (known.map fun key => (fields.find? (·.1 == some key)).map Prod.snd)
    else none
  | array items =>
    if items.length ≤ known.length then
      some (items.map some ++ List.replicate (known.length - items.length) none)
    else none
  | _ => none

/-- A field of a record, or its default. -/
def field? {α : Type} (default : α) (decode : Json → Option α) : Option Json → Option α
  | none => some default
  | some value => decode value

def bool? : Json → Option Bool
  | bool value => some value
  | _ => none

def text? : Json → Option Text
  | string value => value
  | _ => none

/-- A string of one character. -/
def char? : Json → Option Char
  | string (some [c]) => some c
  | _ => none

/-- The number that decimal digits stand for. -/
def ofDigits (t : Text) : Nat := t.foldl (fun n c => n * 10 + (c.toNat - '0'.toNat)) 0

/-- Sizes are below this, the 64th power of two. -/
def sizeLimit : Nat := 18446744073709551616

/-- A size, written as nothing but digits. -/
def size? : Json → Option Nat
  | number literal =>
    if literal.all Char.isDigit && ofDigits literal < sizeLimit then some (ofDigits literal)
    else none
  | _ => none

/-- All items decoded, if each can be. -/
def list? {α : Type} (decode : Json → Option α) : Json → Option (List α)
  | array items => items.mapM decode
  | _ => none

end Json

end Wxml
