import Wxml.Position

/-!
# Cursors

A `Cursor` stands at a byte offset of a source and holds the text from there on.  Every reader moves
it forward by whole characters (`Cursor.advance`), so its offset is always the size of what was
read.  The readers here know names, quoted and unquoted values, and comments; a reader that does not
find what it looks for answers `none`.
-/

namespace Wxml

/-- A place in a source: the bytes before it and the text after it. -/
structure Cursor where
  offset : Nat
  rest : Text
  deriving DecidableEq, Repr

namespace Cursor

/-- The cursor before the first character of a source. -/
def start (source : Text) : Cursor := ⟨0, source⟩

/-- The cursor `n` characters further on, or at the end of the source if that is nearer. -/
def advance (c : Cursor) (n : Nat) : Cursor :=
  ⟨c.offset + Text.size (c.rest.take n), c.rest.drop n⟩

@[simp] theorem advance_rest (c : Cursor) (n : Nat) : (c.advance n).rest = c.rest.drop n := rfl

/-- Whether nothing is left to read. -/
def atEnd (c : Cursor) : Bool := c.rest.isEmpty

/-- The cursor at the end of the source. -/
def finish (c : Cursor) : Cursor := c.advance c.rest.length

/-- The span from an earlier offset up to the cursor. -/
def spanFrom (c : Cursor) (start : Nat) : Span := ⟨start, c.offset⟩

/-- The next character. -/
def peek? (c : Cursor) : Option Char := c.rest.head?

/-- The next character and the cursor after it. -/
def next? (c : Cursor) : Option (Char × Cursor) := c.peek?.map fun d => (d, c.advance 1)

/-- Whether the text ahead starts with `pattern`. -/
def startsWith (c : Cursor) (pattern : Text) : Bool := pattern.isPrefixOf c.rest

/-- The cursor after `pattern`, if the text ahead starts with it. -/
def consume? (c : Cursor) (pattern : Text) : Option Cursor :=
  if c.startsWith pattern then some (c.advance pattern.length) else none

/-- The cursor after `pattern` if the text ahead starts with it, and otherwise where it is. -/
def consume (c : Cursor) (pattern : Text) : Cursor := (c.consume? pattern).getD c

/-- The longest stretch of characters that satisfy `p`. -/
def takeWhile (c : Cursor) (p : Char → Bool) : Text × Cursor :=
  let taken := c.rest.takeWhile p
  (taken, c.advance taken.length)

/-- The cursor after the blanks ahead. -/
def skipBlanks (c : Cursor) : Cursor := (c.takeWhile isBlank).2

/-- The text before the first occurrence of `pattern`, or all of it if there is none. -/
def takeUntil (c : Cursor) (pattern : Text) : Text × Cursor :=
  let taken := (Text.breakOn pattern c.rest).1
  (taken, c.advance taken.length)

/-- The cursor after the next `>`, or at the end. -/
def skipTag (c : Cursor) : Cursor := (c.takeUntil ">").2.consume ">"

/-! ### Names -/

/-- The characters a tag name may start with. -/
def isTagHead (c : Char) : Bool := c.isAlpha || c == '_'

/-- The characters a tag name goes on with. -/
def isTagChar (c : Char) : Bool := c.isAlphanum || c == '-' || c == '_' || c == ':'

/-- The characters an attribute name may start with: the marks of the directive shorthands count. -/
def isAttributeHead (c : Char) : Bool := c.isAlpha || c == '_' || c == ':' || c == '@' || c == '#'

/-- The characters an attribute name goes on with. -/
def isAttributeChar (c : Char) : Bool :=
  c.isAlphanum || c == '-' || c == '_' || c == ':' || c == '.' || c == '[' || c == ']' || c == '$'

/-- A name whose first character satisfies `head` and whose others satisfy `tail`. -/
def name? (c : Cursor) (head tail : Char → Bool) : Option (Text × Cursor) :=
  match c.rest with
  | [] => none
  | d :: rest =>
    if head d then
      let taken := d :: rest.takeWhile tail
      some (taken, c.advance taken.length)
    else none

/-- A tag name. -/
def tagName? (c : Cursor) : Option (Text × Cursor) := c.name? isTagHead isTagChar

/-- An attribute name. -/
def attributeName? (c : Cursor) : Option (Text × Cursor) := c.name? isAttributeHead isAttributeChar

/-! ### Values and comments -/

/-- Whether a character encloses quoted values. -/
def isQuote (c : Char) : Bool := c == '"' || c == '\''

/-- A quoted value, without its quotes, and the quote character.  There is none if the quote is
never closed. -/
def quoted? (c : Cursor) : Option ((Text × Char) × Cursor) :=
  match c.rest with
  | [] => none
  | q :: rest =>
    if isQuote q then
      let value := rest.takeWhile (· != q)
      if value.length < rest.length then some ((value, q), c.advance (value.length + 2)) else none
    else none

/-- The characters of an unquoted value. -/
def isUnquotedChar (c : Char) : Bool :=
  !isBlank c && c != '>' && c != '=' && c != '"' && c != '\''

/-- An unquoted value; it may be empty. -/
def unquoted (c : Cursor) : Text × Cursor := c.takeWhile isUnquotedChar

/-- The content of the comment ahead.  There is none if no comment starts here or it does not
end. -/
def comment? (c : Cursor) : Option (Text × Cursor) :=
  match Text.after? "<!--" c.rest with
  | none => none
  | some body =>
    match Text.breakOn "-->" body with
    | (_, []) => none
    | (content, _ :: _) => some (content, c.advance (content.length + 7))

/-! ### Progress -/

/-- Reading never moves a cursor back. -/
theorem length_skipBlanks_le (c : Cursor) : c.skipBlanks.rest.length ≤ c.rest.length := by
  simp only [skipBlanks, takeWhile, advance_rest, List.length_drop]; omega

theorem length_takeUntil_le (c : Cursor) (pattern : Text) :
    (c.takeUntil pattern).2.rest.length ≤ c.rest.length := by
  simp only [takeUntil, advance_rest, List.length_drop]; omega

theorem length_takeWhile_le (c : Cursor) (p : Char → Bool) :
    (c.takeWhile p).2.rest.length ≤ c.rest.length := by
  simp only [takeWhile, advance_rest, List.length_drop]; omega

theorem length_consume_le (c : Cursor) (pattern : Text) :
    (c.consume pattern).rest.length ≤ c.rest.length := by
  unfold consume consume?
  split
  · simp only [Option.getD_some, advance_rest, List.length_drop]; omega
  · simp

theorem length_skipTag_le (c : Cursor) : c.skipTag.rest.length ≤ c.rest.length :=
  Nat.le_trans (length_consume_le _ _) (c.length_takeUntil_le _)

theorem length_name?_lt {c : Cursor} {head tail : Char → Bool} {t : Text} {c' : Cursor}
    (h : c.name? head tail = some (t, c')) : c'.rest.length < c.rest.length := by
  unfold name? at h
  split at h
  · simp at h
  · rename_i d rest hrest
    split at h
    · simp only [Option.some.injEq, Prod.mk.injEq] at h
      rw [← h.2]
      simp only [advance_rest, hrest, List.length_cons, List.drop_succ_cons, List.length_drop]
      omega
    · simp at h

theorem length_quoted?_lt {c : Cursor} {v : Text × Char} {c' : Cursor}
    (h : c.quoted? = some (v, c')) : c'.rest.length < c.rest.length := by
  unfold quoted? at h
  split at h
  · simp at h
  · rename_i q rest hrest
    split at h
    · simp only at h
      split at h
      · simp only [Option.some.injEq, Prod.mk.injEq] at h
        rw [← h.2]
        simp only [advance_rest, hrest, List.length_drop, List.length_cons]
        omega
      · simp at h
    · simp at h

theorem length_comment?_lt {c : Cursor} {t : Text} {c' : Cursor}
    (h : c.comment? = some (t, c')) : c'.rest.length < c.rest.length := by
  unfold comment? at h
  split at h
  · simp at h
  · rename_i body hbody
    have hne : c.rest ≠ [] := by
      intro hnil
      rw [hnil] at hbody
      simp [Text.after?] at hbody
    have hpos := List.length_pos_iff.2 hne
    split at h
    · simp at h
    · simp only [Option.some.injEq, Prod.mk.injEq] at h
      rw [← h.2]
      simp only [advance_rest, List.length_drop]
      omega

end Cursor

end Wxml
