import Wxml.Text

/-!
# JSON values

A JSON value keeps what was written: the fields of an object in their order, repeated ones too, and
numbers as their literals.
-/

namespace Wxml

/-- A JSON value. -/
inductive Json where
  | null
  | bool (value : Bool)
  /-- A number, as it is written. -/
  | number (literal : Text)
  /-- A string; there is no text for one with an unpaired surrogate. -/
  | string (value : Option Text)
  | array (items : List Json)
  | object (fields : List (Option Text × Json))

namespace Json

/-- The decimal digits of a number. -/
def digits (n : Nat) : Text := Nat.toDigits 10 n

def ofNat (n : Nat) : Json := number (digits n)

def ofText (t : Text) : Json := string (some t)

/-- The object with these fields. -/
def ofFields (fields : List (String × Json)) : Json :=
  object (fields.map fun (key, value) => (some key.toList, value))

/-- Null for nothing. -/
def ofOption {α : Type} (f : α → Json) : Option α → Json
  | none => null
  | some a => f a

/-! ### Writing -/

/-- The hexadecimal digits of a control character. -/
def controlDigits (n : Nat) : Text :=
  ['0', '0', if n < 16 then '0' else '1', (Nat.toDigits 16 (n % 16)).headD '0']

/-- A character as a string writes it. -/
def escape (c : Char) : Text :=
  if c = '"' then "\\\""
  else if c = '\\' then "\\\\"
  else if c = '\n' then "\\n"
  else if c = '\r' then "\\r"
  else if c = '\t' then "\\t"
  else if c.toNat = 0x08 then "\\b"
  else if c.toNat = 0x0c then "\\f"
  else if c.toNat < 0x20 then "\\u" ++ controlDigits c.toNat
  else [c]

def writeText (t : Text) : Text := '"' :: t.flatMap escape ++ ['"']

mutual

/-- The value without any blanks. -/
def write : Json → Text
  | null => "null"
  | bool true => "true"
  | bool false => "false"
  | number literal => literal
  | string value => writeText (value.getD [])
  | array items => "[" ++ writeItems items ++ "]"
  | object fields => "\x7b" ++ writeFields fields ++ "\x7d"

/-- The items of an array, with commas between them. -/
def writeItems : List Json → Text
  | [] => []
  | [item] => write item
  | item :: items => write item ++ "," ++ writeItems items

/-- The fields of an object, with commas between them. -/
def writeFields : List (Option Text × Json) → Text
  | [] => []
  | [(key, value)] => writeText (key.getD []) ++ ":" ++ write value
  | (key, value) :: fields =>
    writeText (key.getD []) ++ ":" ++ write value ++ "," ++ writeFields fields

end

end Json

end Wxml
