import Wxml.Json

/-!
# Tokens of JSON text

`Json.Token.scan` splits JSON text into tokens.  It is strict: literals, numbers, strings and
escapes are exactly those of the format, and control characters must be escaped.
-/

namespace Wxml

namespace Json

/-- A piece of JSON text.  An atom is a value without parts. -/
inductive Token where
  | openArray
  | closeArray
  | openObject
  | closeObject
  | colon
  | comma
  | atom (value : Json)

/-! ### Numbers -/

/-- Whether a text is one or more digits. -/
def isDigits (t : Text) : Bool := !t.isEmpty && t.all Char.isDigit

/-- Whether a text is the whole part of a number: digits, the first of which is zero only if it is
the only one. -/
def isWhole (t : Text) : Bool := isDigits t && (t.length == 1 || t.head? != some '0')

/-- Whether a text is the exponent part of a number, or nothing. -/
def isExponent : Text → Bool
  | [] => true
  | e :: '+' :: t => (e == 'e' || e == 'E') && isDigits t
  | e :: '-' :: t => (e == 'e' || e == 'E') && isDigits t
  | e :: t => (e == 'e' || e == 'E') && isDigits t

/-- Whether a text is the fraction and the exponent of a number, or nothing. -/
def isFraction : Text → Bool
  | '.' :: t => !(t.takeWhile Char.isDigit).isEmpty && isExponent (t.dropWhile Char.isDigit)
  | t => isExponent t

/-- Whether a text is a number without a sign. -/
def isUnsigned (t : Text) : Bool :=
  isWhole (t.takeWhile Char.isDigit) && isFraction (t.dropWhile Char.isDigit)

/-- Whether a text is a number. -/
def isNumber : Text → Bool
  | '-' :: t => isUnsigned t
  | t => isUnsigned t

/-- The characters that occur in numbers. -/
def isNumberChar (c : Char) : Bool :=
  c.isDigit || c == '-' || c == '+' || c == '.' || c == 'e' || c == 'E'

/-! ### Strings -/

/-- The number of characters up to the end of a string, its closing quote included. -/
def stringLength? : Text → Option Nat
  | [] => none
  | '"' :: _ => some 1
  | '\\' :: _ :: t => (stringLength? t).map (· + 2)
  | c :: t => if c.toNat < 0x20 then none else (stringLength? t).map (· + 1)

/-- The value of a hexadecimal digit. -/
def hexDigit? (c : Char) : Option Nat :=
  if c.isDigit then some (c.toNat - '0'.toNat)
  else if 'a' ≤ c && c ≤ 'f' then some (c.toNat - 'a'.toNat + 10)
  else if 'A' ≤ c && c ≤ 'F' then some (c.toNat - 'A'.toNat + 10)
  else none

/-- The code unit that four hexadecimal digits stand for. -/
def hexUnit? (a b c d : Char) : Option Nat :=
  match hexDigit? a, hexDigit? b, hexDigit? c, hexDigit? d with
  | some a, some b, some c, some d => some (((a * 16 + b) * 16 + c) * 16 + d)
  | _, _, _, _ => none

/-- The code point that a one-letter escape stands for. -/
def shortEscape? (c : Char) : Option Nat :=
  if c = '"' || c = '\\' || c = '/' then some c.toNat
  else if c = 'b' then some 0x08
  else if c = 'f' then some 0x0c
  else if c = 'n' then some 0x0a
  else if c = 'r' then some 0x0d
  else if c = 't' then some 0x09
  else none

/-- The code points of the inside of a string, with surrogates as they are written. -/
def codes? : Text → Option (List Nat)
  | [] => some []
  | '\\' :: 'u' :: a :: b :: c :: d :: t =>
    match hexUnit? a b c d, codes? t with
    | some n, some ns => some (n :: ns)
    | _, _ => none
  | '\\' :: c :: t =>
    match shortEscape? c, codes? t with
    | some n, some ns => some (n :: ns)
    | _, _ => none
  | c :: t => (codes? t).map (c.toNat :: ·)

/-- Whether a code unit is the first of a surrogate pair. -/
def isHighSurrogate (n : Nat) : Bool := 0xd800 ≤ n && n < 0xdc00

/-- Whether a code unit is the second of a surrogate pair. -/
def isLowSurrogate (n : Nat) : Bool := 0xdc00 ≤ n && n < 0xe000

/-- The text of some code points, if every surrogate is in a pair. -/
def ofCodes? : List Nat → Option Text
  | [] => some []
  | [n] => if isHighSurrogate n || isLowSurrogate n then none else some [Char.ofNat n]
  | n :: m :: ns =>
    if isHighSurrogate n then
      if isLowSurrogate m then
        (ofCodes? ns).map (Char.ofNat (0x10000 + (n - 0xd800) * 0x400 + (m - 0xdc00)) :: ·)
      else none
    else if isLowSurrogate n then none
    else (ofCodes? (m :: ns)).map (Char.ofNat n :: ·)

/-! ### Tokens -/

/-- The word that a text of letters is. -/
def word? (t : Text) : Option Json :=
  if t = ("null" : Text) then some .null
  else if t = ("true" : Text) then some (.bool true)
  else if t = ("false" : Text) then some (.bool false)
  else none

/-- The token of a punctuation character. -/
def punctuation? (c : Char) : Option Token :=
  if c = '[' then some .openArray
  else if c = ']' then some .closeArray
  else if c = '\x7b' then some .openObject
  else if c = '\x7d' then some .closeObject
  else if c = ':' then some .colon
  else if c = ',' then some .comma
  else none

/-- The characters allowed between tokens. -/
def isSpace (c : Char) : Bool := c == ' ' || c == '\t' || c == '\n' || c == '\r'

/-- The atom that starts with a character, and how many characters of it follow. -/
def atom? (c : Char) (t : Text) : Option (Json × Nat) :=
  if c = '"' then
    match stringLength? t with
    | none => none
    | some n => (codes? (t.take (n - 1))).map fun codes => (.string (ofCodes? codes), n)
  else if c.isDigit || c = '-' then
    let literal := c :: t.takeWhile isNumberChar
    if isNumber literal then some (.number literal, literal.length - 1) else none
  else
    let word := c :: t.takeWhile Char.isAlpha
    (word? word).map fun value => (value, word.length - 1)

/-- The tokens of a text, if it has only such. -/
def Token.scan? : Text → Option (List Token)
  | [] => some []
  | c :: t =>
    if isSpace c then Token.scan? t
    else
      match punctuation? c with
      | some token => (Token.scan? t).map (token :: ·)
      | none =>
        match atom? c t with
        | some (value, n) => (Token.scan? (t.drop n)).map (.atom value :: ·)
        | none => none
termination_by t => t.length
decreasing_by all_goals (simp only [List.length_drop, List.length_cons]; omega)

end Json

end Wxml
