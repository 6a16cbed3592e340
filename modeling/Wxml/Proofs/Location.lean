import Wxml.Component.Reader
import Wxml.Proofs.Reading

/-!
# Where the readers take their text from

`Span.Covers` says which piece of a source a span is about, and `Cursor.Reads` which text lies
between two cursors.  Each reader has one statement of the second kind, and `Cursor.In.covers` turns
these into statements of the first kind for every cursor that comes from the start of the source.

`Tiles` puts spans together: they follow each other in a stretch of the source, and only certain
characters stand between them.
-/

namespace Wxml

/-- The bytes of a span in a source are a piece of text.  Characters begin where the span begins and
end where it ends. -/
def Span.Covers (span : Span) (source piece : Text) : Prop :=
  ∃ before after, source = before ++ (piece ++ after) ∧ span.start = Text.size before ∧
    span.stop = Text.size before + Text.size piece

/-- A span begins and ends between characters of a source. -/
def Span.Within (span : Span) (source : Text) : Prop := ∃ piece, span.Covers source piece

namespace Text

/-- A character ends at this offset of a text, or the text begins there. -/
def Boundary (t : Text) (offset : Nat) : Prop := ∃ before, before <+: t ∧ size before = offset

theorem size_eq_zero {t : Text} (h : size t = 0) : t = [] := by
  cases t with
  | nil => rfl
  | cons c t =>
    have := c.utf8Size_pos
    simp only [size_cons] at h
    omega

/-- Of two beginnings of a text, the one with fewer bytes is a beginning of the other. -/
theorem prefix_of_size_le {t before before' : Text} (h : before <+: t) (h' : before' <+: t)
    (hsize : size before ≤ size before') : before <+: before' := by
  rcases List.prefix_or_prefix_of_prefix h h' with hprefix | ⟨u, rfl⟩
  · exact hprefix
  · have hu : u = [] := by
      apply size_eq_zero
      rw [size_append] at hsize
      omega
    simp [hu]

theorem eq_of_prefix_of_size {t before before' : Text} (h : before <+: t) (h' : before' <+: t)
    (hsize : size before = size before') : before = before' := by
  have h₁ := prefix_of_size_le h h' hsize.le
  have h₂ := prefix_of_size_le h' h hsize.ge
  exact h₁.eq_of_length_le h₂.length_le

end Text

namespace Span.Covers

variable {source piece : Text} {span : Span}

theorem stop_eq (h : span.Covers source piece) : span.stop = span.start + Text.size piece := by
  obtain ⟨before, after, -, hstart, hstop⟩ := h
  omega

theorem start_le (h : span.Covers source piece) : span.start ≤ span.stop := by
  have := h.stop_eq
  omega

theorem start_lt (h : span.Covers source piece) (hne : piece ≠ []) : span.start < span.stop := by
  have hsize : Text.size piece ≠ 0 := fun hzero => hne (Text.size_eq_zero hzero)
  have := h.stop_eq
  omega

theorem size_le (h : span.Covers source piece) : Text.size piece ≤ Text.size source := by
  obtain ⟨before, after, rfl, -, -⟩ := h
  simp only [Text.size_append]
  omega

/-- In a source whose offsets have 32 bits, the piece is what is cut out. -/
theorem cut? (h : span.Covers source piece) (hsize : Text.size source < Span.offsetLimit) :
    span.cut? source = some piece := by
  obtain ⟨before, after, rfl, hstart, hstop⟩ := h
  simp only [Text.size_append] at hsize
  have hkept : span.kept = ⟨Text.size before, Text.size before + Text.size piece⟩ := by
    rw [kept, hstart, hstop, Nat.mod_eq_of_lt (by omega), Nat.mod_eq_of_lt (by omega)]
  rw [Span.cut?, hkept, Text.slice?_append]

/-- A span is about one piece. -/
theorem unique {other : Text} (h : span.Covers source piece) (h' : span.Covers source other) :
    piece = other := by
  have hstop := h.stop_eq
  have hstop' := h'.stop_eq
  obtain ⟨before, after, hsource, hstart, -⟩ := h
  obtain ⟨before', after', hsource', hstart', -⟩ := h'
  have hbefore : before = before' :=
    Text.eq_of_prefix_of_size ⟨_, hsource.symm⟩ ⟨_, hsource'.symm⟩ (by omega)
  subst hbefore
  have hrest : piece ++ after = other ++ after' := List.append_cancel_left (hsource ▸ hsource')
  exact Text.eq_of_prefix_of_size ⟨_, hrest⟩ ⟨_, rfl⟩ (by omega)

theorem stop_le (h : span.Covers source piece) : span.stop ≤ Text.size source := by
  obtain ⟨before, after, rfl, -, hstop⟩ := h
  simp only [Text.size_append]
  omega

theorem boundary_start (h : span.Covers source piece) : Text.Boundary source span.start := by
  obtain ⟨before, after, hsource, hstart, -⟩ := h
  exact ⟨before, ⟨piece ++ after, hsource.symm⟩, hstart.symm⟩

theorem boundary_stop (h : span.Covers source piece) : Text.Boundary source span.stop := by
  obtain ⟨before, after, hsource, -, hstop⟩ := h
  exact ⟨before ++ piece, ⟨after, by simp [hsource]⟩, by rw [Text.size_append, hstop]⟩

/-- A span of a piece that itself lies in a larger text. -/
theorem shift {whole : Text} {outer : Span} (h : span.Covers source piece)
    (houter : outer.Covers whole source) : (span.shift outer.start).Covers whole piece := by
  obtain ⟨before, after, rfl, hstart, hstop⟩ := h
  obtain ⟨outside, beyond, rfl, houtside, -⟩ := houter
  refine ⟨outside ++ before, after ++ beyond, by simp, ?_, ?_⟩
  · simp only [Span.shift, Text.size_append]
    omega
  · simp only [Span.shift, Text.size_append]
    omega

/-- A span that goes on to a later place. -/
theorem extend {offset : Nat} (h : span.Covers source piece) (hle : span.stop ≤ offset)
    (hoffset : Text.Boundary source offset) :
    ∃ t, (⟨span.start, offset⟩ : Span).Covers source (piece ++ t) := by
  obtain ⟨before, after, hsource, hstart, hstop⟩ := h
  obtain ⟨before', hbefore', hsize⟩ := hoffset
  have hprefix : before ++ piece <+: source := ⟨after, by simp [hsource]⟩
  obtain ⟨t, rfl⟩ := Text.prefix_of_size_le hprefix hbefore' (by rw [Text.size_append]; omega)
  obtain ⟨rest, hrest⟩ := hbefore'
  refine ⟨t, before, rest, by simp [← hrest], hstart, ?_⟩
  simp only [Text.size_append] at hsize ⊢
  omega

/-- Neighbouring spans together. -/
theorem append {a b c : Nat} {s t : Text} (hs : (⟨a, b⟩ : Span).Covers source s)
    (ht : (⟨b, c⟩ : Span).Covers source t) : (⟨a, c⟩ : Span).Covers source (s ++ t) := by
  obtain ⟨before, after, hsource, hstart, hstop⟩ := hs
  obtain ⟨before', after', hsource', hstart', hstop'⟩ := ht
  simp only at hstart hstop hstart' hstop'
  have hprefix : before ++ s <+: source := ⟨after, by simp [hsource]⟩
  have hprefix' : before' <+: source := ⟨t ++ after', hsource'.symm⟩
  have hsame : before ++ s = before' := by
    refine Text.eq_of_prefix_of_size hprefix hprefix' ?_
    rw [Text.size_append]
    omega
  refine ⟨before, after', ?_, hstart, ?_⟩
  · rw [hsource', ← hsame]
    simp
  · show c = _
    rw [Text.size_append]
    omega

end Span.Covers

namespace Cursor

/-! ### The text between two cursors -/

/-- Reading a text leads from one cursor to another. -/
structure Reads (c : Cursor) (t : Text) (d : Cursor) : Prop where
  rest : c.rest = t ++ d.rest
  offset : d.offset = c.offset + Text.size t

theorem Reads.refl (c : Cursor) : c.Reads [] c := ⟨rfl, rfl⟩

theorem Reads.trans {c d e : Cursor} {s t : Text} (hs : c.Reads s d) (ht : d.Reads t e) :
    c.Reads (s ++ t) e where
  rest := by rw [hs.rest, ht.rest, List.append_assoc]
  offset := by
    rw [ht.offset, hs.offset, Text.size_append]
    omega

/-- A cursor somewhere in a source. -/
def In (source : Text) (c : Cursor) : Prop := ∃ before, (start source).Reads before c

theorem in_start (source : Text) : (start source).In source := ⟨[], .refl _⟩

theorem In.reads {source t : Text} {c d : Cursor} (h : c.In source) (hreads : c.Reads t d) :
    d.In source := by
  obtain ⟨before, hbefore⟩ := h
  exact ⟨_, hbefore.trans hreads⟩

/-- What is read between two cursors stands at the span between them. -/
theorem In.covers {source t : Text} {c d : Cursor} (h : c.In source) (hreads : c.Reads t d) :
    (⟨c.offset, d.offset⟩ : Span).Covers source t := by
  obtain ⟨before, hrest, hoffset⟩ := h
  refine ⟨before, d.rest, ?_, ?_, ?_⟩
  · rw [← hreads.rest]
    exact hrest
  · simpa [start] using hoffset
  · simpa [start, hoffset] using hreads.offset

theorem In.boundary {source : Text} {c : Cursor} (h : c.In source) :
    Text.Boundary source c.offset := (h.covers (.refl c)).boundary_start

theorem In.offset_eq_size {source : Text} {c : Cursor} (h : c.In source) (hend : c.rest = []) :
    c.offset = Text.size source := by
  obtain ⟨before, hrest, hoffset⟩ := h
  simp only [start, hend, List.append_nil] at hrest hoffset
  rw [hoffset, hrest]
  omega

theorem reads_advance (c : Cursor) (n : Nat) : c.Reads (c.rest.take n) (c.advance n) :=
  ⟨(List.take_append_drop n c.rest).symm, rfl⟩

theorem reads_advance_length {c : Cursor} {t rest : Text} (h : c.rest = t ++ rest) :
    c.Reads t (c.advance t.length) := by
  have := c.reads_advance t.length
  rwa [h, List.take_left] at this

theorem In.within {source t : Text} {c d : Cursor} (h : c.In source) (hreads : c.Reads t d) :
    (⟨c.offset, d.offset⟩ : Span).Within source := ⟨t, h.covers hreads⟩

theorem In.within_of_le {source : Text} {c d : Cursor} (h : c.In source) (hd : d.In source)
    (hle : c.offset ≤ d.offset) : (⟨c.offset, d.offset⟩ : Span).Within source := by
  obtain ⟨t, hcovers⟩ := (h.covers (.refl c)).extend hle hd.boundary
  exact ⟨_, hcovers⟩

/-- A pattern ahead is a stretch of the source. -/
theorem In.within_pattern {source pattern : Text} {c : Cursor} {n : Nat} (h : c.In source)
    (hstarts : c.startsWith pattern = true) (hsize : Text.size pattern = n) :
    (⟨c.offset, c.offset + n⟩ : Span).Within source := by
  obtain ⟨rest, hrest⟩ := startsWith_iff.1 hstarts
  have hreads := reads_advance_length hrest.symm
  have hwithin := h.within hreads
  rwa [hreads.offset, hsize] at hwithin

theorem reads_consume? {c d : Cursor} {pattern : Text} (h : c.consume? pattern = some d) :
    c.Reads pattern d := by
  unfold consume? at h
  split at h
  · rename_i hstarts
    obtain ⟨rest, hrest⟩ := startsWith_iff.1 hstarts
    rw [← Option.some.inj h]
    exact reads_advance_length hrest.symm
  · cases h

theorem reads_takeWhile (c : Cursor) (p : Char → Bool) :
    c.Reads (c.takeWhile p).1 (c.takeWhile p).2 := by
  have h : c.rest = c.rest.takeWhile p ++ c.rest.dropWhile p :=
    List.takeWhile_append_dropWhile.symm
  exact reads_advance_length h

theorem reads_skipBlanks (c : Cursor) : ∃ t, (∀ d ∈ t, isBlank d = true) ∧ c.Reads t c.skipBlanks :=
  ⟨_, List.all_eq_true.1 List.all_takeWhile, c.reads_takeWhile isBlank⟩

theorem In.skipBlanks {source : Text} {c : Cursor} (h : c.In source) : c.skipBlanks.In source := by
  obtain ⟨blanks, -, hskip⟩ := c.reads_skipBlanks
  exact h.reads hskip

theorem reads_takeUntil (c : Cursor) (pattern : Text) :
    c.Reads (c.takeUntil pattern).1 (c.takeUntil pattern).2 :=
  reads_advance_length (Text.breakOn_append pattern c.rest).symm

/-- A tag is skipped up to its first `>`, or to the end without one. -/
theorem reads_skipTag (c : Cursor) :
    ∃ t, '>' ∉ t ∧
      (c.Reads (t ++ ">") c.skipTag ∨ (c.Reads t c.skipTag ∧ c.skipTag.rest = [])) := by
  have hbefore := c.reads_takeUntil ">"
  have hclear : '>' ∉ (c.takeUntil ">").1 := by
    intro hmem
    obtain ⟨before, after, heq⟩ := List.append_of_mem hmem
    have hinfix : (">" : Text) <:+: (c.takeUntil ">").1 := by
      rw [heq]
      exact ⟨before, after, by simp⟩
    exact Text.not_isInfix_breakOn c.rest (by simp) hinfix
  refine ⟨_, hclear, ?_⟩
  unfold skipTag consume
  cases hconsume : (c.takeUntil ">").2.consume? ">" with
  | some d => exact .inl (hbefore.trans (reads_consume? hconsume))
  | none =>
    refine .inr ⟨hbefore, ?_⟩
    have hrest : (c.takeUntil ">").2.rest = (Text.breakOn ">" c.rest).2 := by
      have h₁ := hbefore.rest
      nth_rewrite 1 [← Text.breakOn_append ">" c.rest] at h₁
      exact (List.append_cancel_left h₁).symm
    have hnone : ¬ (">" : Text) <+: (Text.breakOn ">" c.rest).2 := by
      intro hprefix
      rw [consume?, if_pos (startsWith_iff.2 (hrest ▸ hprefix))] at hconsume
      cases hconsume
    rw [Option.getD_none, hrest]
    exact (Text.breakOn_snd_cases ">" c.rest).resolve_right hnone

theorem reads_consume (c : Cursor) (pattern : Text) : ∃ t, c.Reads t (c.consume pattern) := by
  unfold consume
  cases h : c.consume? pattern with
  | none => exact ⟨[], .refl c⟩
  | some d => exact ⟨pattern, reads_consume? h⟩

theorem reads_name? {c d : Cursor} {head tail : Char → Bool} {t : Text}
    (h : c.name? head tail = some (t, d)) : c.Reads t d := by
  unfold name? at h
  split at h
  · cases h
  · rename_i e rest hrest
    split at h
    · simp only [Option.some.injEq, Prod.mk.injEq] at h
      have hcut : c.rest = (e :: rest.takeWhile tail) ++ rest.dropWhile tail := by
        rw [hrest, List.cons_append, List.takeWhile_append_dropWhile]
      rw [← h.1, ← h.2]
      exact reads_advance_length hcut
    · cases h

/-- A quoted value stands between two quote characters. -/
theorem reads_quoted? {c d : Cursor} {value : Text} {q : Char}
    (h : c.quoted? = some ((value, q), d)) :
    isQuote q = true ∧ c.Reads (q :: (value ++ [q])) d := by
  unfold quoted? at h
  split at h
  · cases h
  · rename_i r rest hrest
    split at h
    · rename_i hquote
      simp only at h
      split at h
      · rename_i hlength
        simp only [Option.some.injEq, Prod.mk.injEq] at h
        obtain ⟨⟨rfl, rfl⟩, rfl⟩ := h
        -- What follows the characters before the first `r` is not empty, so it starts with `r`.
        have hcut := List.takeWhile_append_dropWhile (p := (· != r)) (l := rest)
        cases hafter : rest.dropWhile (· != r) with
        | nil =>
          rw [hafter, List.append_nil] at hcut
          rw [hcut] at hlength
          omega
        | cons e after =>
          have he : e = r := by
            have := List.head?_dropWhile_not (· != r) rest
            rw [hafter] at this
            simpa using this
          subst he
          rw [hafter] at hcut
          refine ⟨hquote, ?_⟩
          have hwhole : c.rest = (e :: (rest.takeWhile (· != e) ++ [e])) ++ after := by
            rw [hrest]
            nth_rewrite 1 [← hcut]
            simp
          have := reads_advance_length hwhole
          simpa using this
      · cases h
    · cases h

theorem reads_comment? {c d : Cursor} {content : Text} (h : c.comment? = some (content, d)) :
    c.Reads ("<!--" ++ (content ++ "-->")) d := by
  unfold comment? at h
  split at h
  · cases h
  · rename_i body hbody
    split at h
    · cases h
    · rename_i first e rest hbreak
      simp only [Option.some.injEq, Prod.mk.injEq] at h
      obtain ⟨rfl, rfl⟩ := h
      have hwhole := Text.breakOn_append "-->" body
      have hclosing := Text.breakOn_snd_cases "-->" body
      rw [hbreak] at hwhole hclosing
      obtain ⟨after, hafter⟩ := hclosing.resolve_left (by simp)
      have hcut : c.rest = ("<!--" ++ (first ++ "-->")) ++ after := by
        rw [Text.after?_eq_some_iff.1 hbody, ← hwhole, ← hafter]
        simp
      have := reads_advance_length hcut
      simpa using this

theorem reads_body (c : Cursor) (tag : Text) : c.Reads (c.body tag).1 (c.body tag).2 :=
  reads_advance_length (List.take_append_drop _ _).symm

/-- What a reader leads to in a source: a result and a cursor after it, or a fault at a place of the
source. -/
def Outcome {ε α : Type} (source : Text) (place : ε → Span) (holds : α → Cursor → Prop) :
    Except ε (α × Cursor) → Prop
  | .ok (a, after) => after.In source ∧ holds a after
  | .error fault => (place fault).Within source

theorem Outcome.imp {ε α : Type} {source : Text} {place : ε → Span} {p q : α → Cursor → Prop}
    {result : Except ε (α × Cursor)} (h : Outcome source place p result)
    (himp : ∀ a after, p a after → q a after) : Outcome source place q result := by
  cases result with
  | error fault => exact h
  | ok found => exact ⟨h.1, himp _ _ h.2⟩

end Cursor

/-! ### Spans side by side -/

/-- Between two offsets a source has only characters of a kind. -/
def Gap (source : Text) (p : Char → Bool) (a b : Nat) : Prop :=
  ∃ t, (⟨a, b⟩ : Span).Covers source t ∧ ∀ c ∈ t, p c = true

/-- From one offset to another a source is some spans in their order, with only characters of a kind
before them, between them and after them. -/
def Tiles (source : Text) (p : Char → Bool) : Nat → List Span → Nat → Prop
  | a, [], b => Gap source p a b
  | a, span :: spans, b =>
    Gap source p a span.start ∧ span.start ≤ span.stop ∧ Tiles source p span.stop spans b

theorem Cursor.In.gap {source t : Text} {p : Char → Bool} {c d : Cursor} (h : c.In source)
    (hreads : c.Reads t d) (ht : ∀ e ∈ t, p e = true) : Gap source p c.offset d.offset :=
  ⟨t, h.covers hreads, ht⟩

theorem Cursor.In.gap_self {source : Text} {c : Cursor} (h : c.In source) (p : Char → Bool) :
    Gap source p c.offset c.offset := h.gap (.refl c) (by simp)

section

variable {source : Text} {p : Char → Bool} {a b c : Nat} {spans : List Span}

theorem Gap.append (h : Gap source p a b) (h' : Gap source p b c) : Gap source p a c := by
  obtain ⟨t, hcovers, ht⟩ := h
  obtain ⟨t', hcovers', ht'⟩ := h'
  refine ⟨t ++ t', hcovers.append hcovers', fun d hd => ?_⟩
  rcases List.mem_append.1 hd with hd | hd
  · exact ht d hd
  · exact ht' d hd

theorem Gap.le (h : Gap source p a b) : a ≤ b := by
  obtain ⟨t, hcovers, -⟩ := h
  exact hcovers.start_le

theorem Tiles.gap_append (h : Gap source p a b) (h' : Tiles source p b spans c) :
    Tiles source p a spans c := by
  cases spans with
  | nil => exact h.append h'
  | cons span spans => exact ⟨h.append h'.1, h'.2⟩

theorem Tiles.append_gap (h : Tiles source p a spans b) (h' : Gap source p b c) :
    Tiles source p a spans c := by
  induction spans generalizing a with
  | nil => exact Gap.append h h'
  | cons span spans ih => exact ⟨h.1, h.2.1, ih h.2.2⟩

theorem Tiles.append_span (h : Tiles source p a spans b) (hle : b ≤ c) (h' : Gap source p c c) :
    Tiles source p a (spans ++ [⟨b, c⟩]) c := by
  induction spans generalizing a with
  | nil => exact ⟨h, hle, h'⟩
  | cons span spans ih => exact ⟨h.1, h.2.1, ih h.2.2⟩

theorem Tiles.le (h : Tiles source p a spans b) : a ≤ b := by
  induction spans generalizing a with
  | nil => exact Gap.le h
  | cons span spans ih =>
    have h₁ := h.1.le
    have h₂ := ih h.2.2
    have h₃ := h.2.1
    omega

end

/-! ### Attributes -/

namespace Attribute

/-- How what follows the name of an attribute is spelled, for each value. -/
inductive Spelled : Option Text → Text → Prop
  | flag {blanks : Text} (h : ∀ c ∈ blanks, isBlank c = true) : Spelled none blanks
  | unquoted {value blanks more : Text} (h : ∀ c ∈ blanks, isBlank c = true)
      (h' : ∀ c ∈ more, isBlank c = true) (clear : ∀ c ∈ value, Cursor.isUnquotedChar c = true) :
      Spelled (some value) (blanks ++ ('=' :: (more ++ value)))
  | quoted {value blanks more : Text} {q : Char} (h : ∀ c ∈ blanks, isBlank c = true)
      (h' : ∀ c ∈ more, isBlank c = true) (quote : Cursor.isQuote q = true) :
      Spelled (some value) (blanks ++ ('=' :: (more ++ (q :: (value ++ [q])))))

theorem reads_readValue {c d : Cursor} {value : Option Text} (h : readValue c = .ok (value, d)) :
    ∃ t, Spelled value t ∧ c.Reads t d := by
  obtain ⟨blanks, hblanks, hskip⟩ := c.reads_skipBlanks
  unfold readValue at h
  split at h
  · cases h
    exact ⟨blanks, .flag hblanks, hskip⟩
  · rename_i e hequals
    obtain ⟨more, hmore, hskip'⟩ := e.reads_skipBlanks
    have hbefore : c.Reads (blanks ++ ("=" ++ more)) e.skipBlanks :=
      hskip.trans ((Cursor.reads_consume? hequals).trans hskip')
    simp only at h
    split at h
    · split at h
      · rename_i v q after hquoted
        cases h
        obtain ⟨hquote, hreads⟩ := Cursor.reads_quoted? hquoted
        have := hbefore.trans hreads
        exact ⟨_, .quoted hblanks hmore hquote, by simpa using this⟩
      · cases h
    · cases h
      have : c.Reads (blanks ++ ("=" ++ more) ++ e.skipBlanks.unquoted.1) e.skipBlanks.unquoted.2 :=
        hbefore.trans (e.skipBlanks.reads_takeWhile Cursor.isUnquotedChar)
      refine ⟨_, .unquoted hblanks hmore ?_, by simpa using this⟩
      exact List.all_eq_true.1 List.all_takeWhile

theorem reads_readValue_error {c d : Cursor} (h : readValue c = .error d) : ∃ t, c.Reads t d := by
  obtain ⟨blanks, -, hskip⟩ := c.reads_skipBlanks
  unfold readValue at h
  split at h
  · cases h
  · rename_i e hequals
    obtain ⟨more, -, hskip'⟩ := e.reads_skipBlanks
    simp only at h
    split at h
    · split at h
      · cases h
      · cases h
        exact ⟨_, hskip.trans ((Cursor.reads_consume? hequals).trans hskip')⟩
    · cases h

/-- An attribute stands where its span says, and its name comes first. -/
theorem reads_read? {c d : Cursor} {a : Attribute} (h : read? c = some (.ok (a, d))) :
    a.span = ⟨c.offset, d.offset⟩ ∧ ∃ t, Spelled a.value t ∧ c.Reads (a.key ++ t) d := by
  unfold read? at h
  split at h
  · cases h
  · rename_i key named hname
    split at h
    · rename_i value after hvalue
      cases h
      obtain ⟨t, hspelled, hreads⟩ := reads_readValue hvalue
      exact ⟨rfl, t, hspelled, (Cursor.reads_name? hname).trans hreads⟩
    · cases h

/-- A value that does not end is at fault from the name on. -/
theorem within_read? {source : Text} {c : Cursor} {u : Unterminated} (hin : c.In source)
    (h : read? c = some (.error u)) : u.span.Within source := by
  unfold read? at h
  split at h
  · cases h
  · rename_i key named hname
    split at h
    · cases h
    · rename_i stuck hvalue
      cases h
      obtain ⟨t, hreads⟩ := reads_readValue_error hvalue
      exact hin.within ((Cursor.reads_name? hname).trans hreads)

/-- An attribute stands where its span says: its name, and then its value. -/
def Placed (source : Text) (a : Attribute) : Prop :=
  ∃ t, Spelled a.value t ∧ a.span.Covers source (a.key ++ t)

theorem bne_of_isBlank {c : Char} (h : isBlank c = true) : (c != '>') = true :=
  bne_iff_ne.2 (ne_of_isBlank h rfl)

/-- A character that does not start an attribute is passed over; it does not end the tag. -/
theorem gap_skip {source : Text} {c : Cursor} (h : c.In source)
    (hend : ¬ atTagEnd c.skipBlanks = true) :
    (c.skipBlanks.advance 1).In source ∧
      Gap source (· != '>') c.offset (c.skipBlanks.advance 1).offset := by
  obtain ⟨blanks, hblanks, hskip⟩ := c.reads_skipBlanks
  have hin := h.reads hskip
  have hone := c.skipBlanks.reads_advance 1
  refine ⟨hin.reads hone, ?_⟩
  have hbefore := h.gap hskip fun d hd => bne_of_isBlank (hblanks d hd)
  refine hbefore.append (hin.gap hone fun d hd => ?_)
  rw [bne_iff_ne]
  rintro rfl
  simp only [atTagEnd, Bool.or_eq_true, not_or] at hend
  refine hend.1.2 (Cursor.startsWith_iff.2 ?_)
  cases hrest : c.skipBlanks.rest with
  | nil => simp [hrest] at hd
  | cons e rest =>
    rw [hrest] at hd
    obtain rfl : '>' = e := by simpa using hd
    exact ⟨rest, rfl⟩

/-- The attributes of a tag stand one after another where their spans say, and no `>` stands between
them. -/
theorem readDistinct_outcome {source : Text} (seen : List Text) (c : Cursor) (hin : c.In source) :
    Cursor.Outcome source (fun fault => (Template.Fault.inTag fault).span)
      (fun as after => Tiles source (· != '>') c.offset (as.map Attribute.span) after.offset ∧
        ∀ a ∈ as, a.Placed source)
      (readDistinct seen c) := by
  fun_induction readDistinct seen c with
  | case1 seen c hend =>
    obtain ⟨blanks, hblanks, hskip⟩ := c.reads_skipBlanks
    refine ⟨hin.reads hskip, ?_, by simp⟩
    exact hin.gap hskip fun e he => bne_of_isBlank (hblanks e he)
  | case2 seen c hend hread ih =>
    obtain ⟨hin', hgap⟩ := gap_skip hin hend
    exact (ih hin').imp fun as after h => ⟨h.1.gap_append hgap, h.2⟩
  | case3 seen c hend u hread => exact within_read? hin.skipBlanks hread
  | case4 seen c hend a after hread hseen =>
    obtain ⟨hspan, t, -, hreads⟩ := reads_read? hread
    show a.span.Within source
    rw [hspan]
    exact hin.skipBlanks.within hreads
  | case5 seen c hend a after hread hseen more last hmore ih =>
    obtain ⟨blanks, hblanks, hskip⟩ := c.reads_skipBlanks
    obtain ⟨hspan, t, hspelled, hreads⟩ := reads_read? hread
    have hat := hin.reads hskip
    have hlater := ih (hat.reads hreads)
    rw [hmore] at hlater
    obtain ⟨hlast, htiles, hplaced⟩ := hlater
    have hcovers := hat.covers hreads
    rw [← hspan] at hcovers
    refine ⟨hlast, ⟨?_, hcovers.start_le, ?_⟩, ?_⟩
    · rw [hspan]
      exact hin.gap hskip fun e he => bne_of_isBlank (hblanks e he)
    · rw [hspan]
      exact htiles
    · rw [List.forall_mem_cons]
      exact ⟨⟨t, hspelled, hcovers⟩, hplaced⟩
  | case6 seen c hend a after hread hseen fault hmore ih =>
    obtain ⟨-, t, -, hreads⟩ := reads_read? hread
    have hlater := ih (hin.skipBlanks.reads hreads)
    rwa [hmore] at hlater

end Attribute

end Wxml
