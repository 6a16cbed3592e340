import Wxml.Cursor

/-!
# The body of a block

`Cursor.body` reads the content of a block up to the closing tag that matches it.  Tags of the same
name inside the content are balanced, comments are stepped over, and names are compared without
regard to ASCII case.  The content is cut into pieces (`Body.Piece.ofText`), each at least one
character long, and `Body.length` adds up the pieces before the first closing tag at depth zero.
-/

namespace Wxml

namespace Body

/-- Whether a tag name may end before this text. -/
def endsName : Text → Bool
  | [] => true
  | c :: _ => c == '>' || c == '/' || c == ' ' || c == '\t' || c == '\n' || c == '\r'

/-- Whether the text starts with `pattern`, up to ASCII case, and no longer name. -/
def startsTag (pattern t : Text) : Bool :=
  Text.sameIgnoringCase (t.take pattern.length) pattern && endsName (t.drop pattern.length)

/-- The length of the rest of an opening tag, its `>` included, and whether the tag is self-closing.
`quote` is the quote character of the value the text is inside of.  A quote that is never closed is
an ordinary character. -/
def tagRest (quote : Option Char) : Text → Nat × Bool
  | [] => (0, false)
  | c :: t =>
    let on (q : Option Char) := let (n, closes) := tagRest q t; (n + 1, closes)
    match quote with
    | some q => on (if c == q then none else quote)
    | none =>
      if Cursor.isQuote c then on (if t.contains c then some c else none)
      else if c == '>' then (1, false)
      else if c == '/' && t.head? == some '>' then (2, true)
      else on none

/-- What the content of a block starts with. -/
inductive Piece where
  /-- A comment, or the start of one that never ends. -/
  | comment
  /-- A closing tag of the block's own name, up to its name's end. -/
  | closing
  /-- An opening tag of the block's own name. -/
  | opening
  /-- A self-closing tag of the block's own name. -/
  | selfClosing
  /-- Any other character. -/
  | plain
  deriving DecidableEq, Repr

/-- The first piece of a non-empty content and how many characters follow its first one. -/
def Piece.ofText (tag t : Text) : Piece × Nat :=
  if ("<!--" : Text).isPrefixOf t then
    match (Cursor.start t).comment? with
    | some (content, _) => (.comment, content.length + 6)
    | none => (.comment, t.length - 1)
  else if startsTag ("</" ++ tag) t then (.closing, tag.length + 1)
  else if startsTag ("<" ++ tag) t then
    let (n, closes) := tagRest none (t.drop (tag.length + 1))
    (if closes then .selfClosing else .opening, tag.length + n)
  else (.plain, 0)

/-- The length of a block's content: everything before the closing tag that matches `depth` more
opening tags than were read. -/
def length (tag : Text) (depth : Nat) : Text → Nat
  | [] => 0
  | c :: t =>
    match Piece.ofText tag (c :: t) with
    | (.closing, n) =>
      match depth with
      | 0 => 0
      | depth + 1 => n + 1 + length tag depth (t.drop n)
    | (.opening, n) => n + 1 + length tag (depth + 1) (t.drop n)
    | (_, n) => n + 1 + length tag depth (t.drop n)
termination_by t => t.length
decreasing_by all_goals (simp only [List.length_drop, List.length_cons]; omega)

end Body

/-- The content of a block named `tag`, up to the closing tag that matches it or to the end. -/
def Cursor.body (c : Cursor) (tag : Text) : Text × Cursor :=
  let content := c.rest.take (Body.length tag 0 c.rest)
  (content, c.advance content.length)

theorem Cursor.length_body_le (c : Cursor) (tag : Text) :
    (c.body tag).2.rest.length ≤ c.rest.length := by
  simp only [Cursor.body, Cursor.advance_rest, List.length_drop]; omega

end Wxml
