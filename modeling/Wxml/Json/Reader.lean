import Wxml.Json.Token

/-!
# Reading JSON

`Json.read?` puts tokens together to one value, with the arrays and objects that are open on a
stack.
-/

namespace Wxml

namespace Json

/-- An open array or object with what it has so far, the latest first. -/
inductive Frame where
  | inArray (items : List Json)
  /-- An object, and the key whose value is being read. -/
  | inObject (fields : List (Option Text × Json)) (key : Option Text)

/-- What must come next. -/
inductive Expected where
  | value
  /-- A value or the end of the array. -/
  | firstItem
  /-- A key or the end of the object. -/
  | firstKey
  | key (fields : List (Option Text × Json))
  | colon (fields : List (Option Text × Json)) (key : Option Text)
  /-- What goes on after this value. -/
  | after (value : Json)

/-- What is expected after a token, with the arrays and objects then open; none if the token is
out of place. -/
def step : Token → Expected → List Frame → Option (Expected × List Frame)
  | .atom value, .value, frames => some (.after value, frames)
  | .atom value, .firstItem, frames => some (.after value, frames)
  | .openArray, .value, frames => some (.firstItem, .inArray [] :: frames)
  | .openArray, .firstItem, frames => some (.firstItem, .inArray [] :: frames)
  | .openObject, .value, frames => some (.firstKey, frames)
  | .openObject, .firstItem, frames => some (.firstKey, frames)
  | .closeArray, .firstItem, .inArray _ :: frames => some (.after (.array []), frames)
  | .closeObject, .firstKey, frames => some (.after (.object []), frames)
  | .atom (.string key), .firstKey, frames => some (.colon [] key, frames)
  | .atom (.string key), .key fields, frames => some (.colon fields key, frames)
  | .colon, .colon fields key, frames => some (.value, .inObject fields key :: frames)
  | .comma, .after value, .inArray items :: frames =>
    some (.value, .inArray (value :: items) :: frames)
  | .comma, .after value, .inObject fields key :: frames =>
    some (.key ((key, value) :: fields), frames)
  | .closeArray, .after value, .inArray items :: frames =>
    some (.after (.array (value :: items).reverse), frames)
  | .closeObject, .after value, .inObject fields key :: frames =>
    some (.after (.object ((key, value) :: fields).reverse), frames)
  | _, _, _ => none

/-- The value that the tokens complete. -/
def assemble : List Token → Expected → List Frame → Option Json
  | [], .after value, [] => some value
  | [], _, _ => none
  | token :: tokens, expected, frames =>
    match step token expected frames with
    | some (expected, frames) => assemble tokens expected frames
    | none => none

/-- The value that a text is. -/
def read? (t : Text) : Option Json :=
  match Token.scan? t with
  | some tokens => assemble tokens .value []
  | none => none

end Json

end Wxml
