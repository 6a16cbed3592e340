/-!
# Text

Source text is a list of characters, and places in it are counted in UTF-8 bytes.  This file has
the byte size (`Text.size`), the blank characters (`isBlank`), and the ways of cutting a text that
every reader uses: trimming, splitting at the first occurrence of a pattern (`Text.breakOn`),
dropping a number of bytes (`Text.dropBytes?`), and the bytes between two offsets (`Text.slice?`).
-/

namespace Wxml

/-- Source text, and every piece cut out of it. -/
abbrev Text := List Char

instance : Coe String Text := ⟨String.toList⟩

/-- The characters with the White_Space property. -/
def isBlank (c : Char) : Bool :=
  let n := c.toNat
  (0x09 ≤ n && n ≤ 0x0d) || n == 0x20 || n == 0x85 || n == 0xa0 || n == 0x1680 ||
    (0x2000 ≤ n && n ≤ 0x200a) || n == 0x2028 || n == 0x2029 || n == 0x202f || n == 0x205f ||
    n == 0x3000

namespace Text

/-! ### Size in bytes -/

/-- The number of bytes of a text in UTF-8. -/
def size : Text → Nat
  | [] => 0
  | c :: t => c.utf8Size + size t

@[simp] theorem size_nil : size [] = 0 := rfl

@[simp] theorem size_cons (c : Char) (t : Text) : size (c :: t) = c.utf8Size + size t := rfl

@[simp] theorem size_append (s t : Text) : size (s ++ t) = size s + size t := by
  induction s with
  | nil => simp
  | cons c s ih => simp [ih, Nat.add_assoc]

/-- The text after its first `n` bytes, if a character ends there. -/
def dropBytes? : Nat → Text → Option Text
  | 0, t => some t
  | _ + 1, [] => none
  | n + 1, c :: t => if c.utf8Size ≤ n + 1 then dropBytes? (n + 1 - c.utf8Size) t else none
termination_by _ t => t.length

/-- The first `n` bytes of a text, if a character ends there. -/
def takeBytes? : Nat → Text → Option Text
  | 0, _ => some []
  | _ + 1, [] => none
  | n + 1, c :: t =>
    if c.utf8Size ≤ n + 1 then (takeBytes? (n + 1 - c.utf8Size) t).map (c :: ·) else none
termination_by structural _ t => t

/-- The bytes of a text from one offset up to another, if both are in order and between
characters. -/
def slice? (t : Text) (start stop : Nat) : Option Text :=
  if start ≤ stop then (dropBytes? start t).bind (takeBytes? (stop - start)) else none

/-! ### Trimming -/

/-- The text without its trailing characters that satisfy `p`. -/
def dropEndWhile (p : Char → Bool) (t : Text) : Text := (t.reverse.dropWhile p).reverse

/-- The text without leading blanks. -/
def trimStart (t : Text) : Text := t.dropWhile isBlank

/-- The text without trailing blanks. -/
def trimEnd (t : Text) : Text := dropEndWhile isBlank t

/-- The text without blanks at either end. -/
def trim (t : Text) : Text := trimEnd (trimStart t)

/-- Whether every character is blank. -/
def allBlank (t : Text) : Bool := t.all isBlank

/-! ### Patterns -/

/-- The text split before the first occurrence of `pattern`; the second part is empty if there is
none. -/
def breakOn (pattern : Text) : Text → Text × Text
  | [] => ([], [])
  | c :: t =>
    if pattern.isPrefixOf (c :: t) then ([], c :: t)
    else
      let (before, rest) := breakOn pattern t
      (c :: before, rest)

theorem breakOn_append (pattern t : Text) : (breakOn pattern t).1 ++ (breakOn pattern t).2 = t := by
  induction t with
  | nil => rfl
  | cons c t ih =>
    unfold breakOn
    split
    · rfl
    · simp [ih]

/-- The text after `pattern`, if it starts with it. -/
def after? : (pattern text : Text) → Option Text
  | [], t => some t
  | _ :: _, [] => none
  | p :: ps, c :: t => if p == c then after? ps t else none

/-- The parts of a text between the occurrences of a character; there is always at least one. -/
def splitOn (sep : Char) : Text → List Text
  | [] => [[]]
  | c :: t =>
    if c == sep then [] :: splitOn sep t
    else
      match splitOn sep t with
      | [] => [[c]]
      | part :: parts => (c :: part) :: parts

/-- The texts in order, with `sep` between neighbours. -/
def join (sep : Text) : List Text → Text
  | [] => []
  | [t] => t
  | t :: ts => t ++ sep ++ join sep ts

/-! ### ASCII case -/

/-- The text with its ASCII capitals made small. -/
def lower (t : Text) : Text := t.map Char.toLower

/-- Whether two texts differ at most in the case of ASCII letters. -/
def sameIgnoringCase (s t : Text) : Bool := lower s == lower t

end Text

end Wxml
