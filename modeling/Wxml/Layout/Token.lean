import Wxml.Cursor
import Wxml.Layout.Options
import Wxml.VoidTag

/-!
# Tokens of markup

For layout, markup is a sequence of tokens: tags, comments, text, and the raw content of scripts and
of elements that are copied as they stand.  `Token.scan` splits any text into tokens, well formed or
not, and `Token.source` gives back what each was read from.
-/

namespace Wxml

namespace Layout

/-- A piece of markup. -/
inductive Token where
  | opened (name markup : Text)
  /-- A self-closing or void tag, or a declaration. -/
  | selfClosing (markup : Text)
  | closed (name markup : Text)
  /-- A comment, with its delimiters. -/
  | comment (markup : Text)
  | text (content : Text)
  /-- The content of a script, or of an element that is copied as it stands. -/
  | raw (content : Text) (script : Bool)
  deriving DecidableEq, Repr

/-- What a raw content belongs to: the name of its element, and whether that is a script. -/
structure RawElement where
  name : Text
  script : Bool
  deriving DecidableEq, Repr

namespace Token

/-- The text a token was read from. -/
def source : Token → Text
  | opened _ markup => markup
  | selfClosing markup => markup
  | closed _ markup => markup
  | comment markup => markup
  | text content => content
  | raw content _ => content

/-- The elements whose content is script or style text. -/
def scriptTags : List Text := ["script", "wxs", "style"]

/-- Whether a tag, a comment or a declaration starts here. -/
def startsMarkup : Text → Bool
  | '<' :: c :: _ => c.isAlpha || c == '/' || c == '!'
  | _ => false

/-- The characters of a tag name. -/
def isNameChar (c : Char) : Bool :=
  c.isAlphanum || c == '-' || c == '_' || c == ':' || c == '.'

/-- The name a text starts with; it may be empty. -/
def name (t : Text) : Text := t.takeWhile isNameChar

/-- The number of characters up to the end of a tag, its `>` included.  A `>` in a quoted value does
not end it; `quote` is the quote character of the value the text is inside of. -/
def tagLength? (quote : Option Char) : Text → Option Nat
  | [] => none
  | c :: t =>
    match quote with
    | some q => (tagLength? (if c == q then none else some q) t).map (· + 1)
    | none =>
      if Cursor.isQuote c then (tagLength? (some c) t).map (· + 1)
      else if c == '>' then some 1
      else (tagLength? none t).map (· + 1)

/-- The number of characters before the next markup.  Inside an interpolation there is none. -/
def textLength : (inside : Bool) → Text → Nat
  | _, [] => 0
  | true, '\x7d' :: '\x7d' :: t => textLength false t + 2
  | true, _ :: t => textLength true t + 1
  | false, '\x7b' :: '\x7b' :: t => textLength true t + 2
  | false, c :: t => if startsMarkup (c :: t) then 0 else textLength false t + 1

/-- The token that a whole tag is.  A void tag counts as self-closing however it is written. -/
def ofTag (markup : Text) : Token :=
  match markup with
  | '<' :: '/' :: body => closed (name body) markup
  | _ =>
    let tag := name (markup.drop 1)
    if tag.isEmpty || ("/>" : Text).isSuffixOf markup || VoidTag.wxml.contains tag then
      selfClosing markup
    else opened tag markup

/-- The comment a text starts with; one that does not end is all of it. -/
def ofComment (t : Text) : Token :=
  match Text.breakOn "-->" t with
  | (_, []) => comment t
  | (before, _ :: _) => comment (t.take (before.length + 3))

/-- The first token of a text outside of raw content.  A tag that does not end is text. -/
def first (t : Text) : Token :=
  if ("<!--" : Text).isPrefixOf t then ofComment t
  else if startsMarkup t then
    match tagLength? none (t.drop 1) with
    | some n => ofTag (t.take (n + 1))
    | none => text t
  else text (t.take (textLength false t))

/-- The raw content that comes after a token, if one does. -/
def rawAfter (o : Options) : Token → Option RawElement
  | opened name _ =>
    if scriptTags.contains name then some ⟨name, true⟩
    else if o.unformatted.contains name then some ⟨name, false⟩
    else none
  | _ => none

/-- The raw content of an element: everything before its closing tag, without regard to how its
name ends. -/
def rawContent (e : RawElement) (t : Text) : Text := (Text.breakOn ("</" ++ e.name) t).1

/-- The token ahead, where the content of a raw element may start.  Empty raw content is no
token. -/
def next (element : Option RawElement) (t : Text) : Token :=
  match element with
  | none => first t
  | some e =>
    let content := rawContent e t
    if content.isEmpty then first t else raw content e.script

/-! ### Every token has a text -/

theorem source_ofTag (markup : Text) : (ofTag markup).source = markup := by
  unfold ofTag
  split
  · rfl
  · simp only
    split <;> rfl

theorem length_ofComment {t : Text} (h : t ≠ []) : 0 < (ofComment t).source.length := by
  have := List.length_pos_iff.2 h
  unfold ofComment
  split
  · simpa [source] using this
  · simp only [source, List.length_take]
    omega

theorem textLength_pos {t : Text} (h : t ≠ []) (hm : startsMarkup t = false) :
    0 < textLength false t := by
  unfold textLength
  split <;> simp_all

theorem length_first {t : Text} (h : t ≠ []) : 0 < (first t).source.length := by
  have hpos := List.length_pos_iff.2 h
  unfold first
  split
  · exact length_ofComment h
  · split
    · split
      · rw [source_ofTag, List.length_take]
        omega
      · simpa [source] using hpos
    · rename_i hm
      have := textLength_pos h (by simpa using hm)
      simp only [source, List.length_take]
      omega

theorem length_next (element : Option RawElement) {t : Text} (h : t ≠ []) :
    0 < (next element t).source.length := by
  unfold next
  split
  · exact length_first h
  · simp only
    split
    · exact length_first h
    · rename_i hne
      simp only [source]
      exact List.length_pos_iff.2 (by simpa using hne)

/-- The tokens of a text, at the start of the content of a raw element or of nothing such. -/
def scan (o : Options) (element : Option RawElement) (t : Text) : List Token :=
  if _hend : t = [] then []
  else
    let token := next element t
    token :: scan o (token.rawAfter o) (t.drop token.source.length)
termination_by t.length
decreasing_by
  have h₁ := length_next element _hend
  have h₂ := List.length_pos_iff.2 _hend
  simp only [List.length_drop]
  omega

/-- The tokens of a markup text. -/
def ofText (o : Options) (t : Text) : List Token := scan o none t

end Token

end Layout

end Wxml
