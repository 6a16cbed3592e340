import Mathlib.Data.List.DropRight
import Wxml.Position
import Wxml.Text.Bytes

/-!
# Looking up lines

A `LineTable` is built from the characters of a text and asked about byte offsets, which may fall
inside a character.  Here it is compared with the bytes themselves: a line is the number of line
feeds before an offset, a column the number of bytes after the last of them.  The bridge is
`Bytes.lineStarts`, the table of a sequence of bytes, which splits wherever the bytes do.
-/

namespace Wxml

/-! ### Line feeds in bytes -/

namespace Bytes

/-- The byte of a line feed. -/
def lineFeed : UInt8 := 10

/-- The bytes after the last line feed, or all of them. -/
def lastLine (b : Bytes) : Bytes := b.rtakeWhile (· != lineFeed)

/-- The offsets just after the line feeds of bytes that begin at `offset`. -/
def lineStarts (offset : Nat) : Bytes → List Nat
  | [] => []
  | b :: bs =>
    if b = lineFeed then (offset + 1) :: lineStarts (offset + 1) bs
    else lineStarts (offset + 1) bs

theorem lineStarts_append (offset : Nat) (a b : Bytes) :
    lineStarts offset (a ++ b) = lineStarts offset a ++ lineStarts (offset + a.length) b := by
  induction a generalizing offset with
  | nil => rfl
  | cons x a ih =>
    have hlength : offset + (x :: a).length = offset + 1 + a.length := by
      rw [List.length_cons]; omega
    rw [List.cons_append, lineStarts, lineStarts, ih, hlength]
    split <;> rfl

theorem length_lineStarts (offset : Nat) (b : Bytes) :
    (lineStarts offset b).length = b.count lineFeed := by
  induction b generalizing offset with
  | nil => rfl
  | cons x b ih =>
    rw [lineStarts, List.count_cons]
    split
    · next h => simp [ih, h]
    · next h => simp [ih, h]

theorem bounds_of_mem_lineStarts {offset start : Nat} {b : Bytes}
    (h : start ∈ lineStarts offset b) : offset < start ∧ start ≤ offset + b.length := by
  induction b generalizing offset with
  | nil => simp [lineStarts] at h
  | cons x b ih =>
    rw [lineStarts] at h
    rw [List.length_cons]
    split at h
    · cases h with
      | head => omega
      | tail _ h => have := ih h; omega
    · have := ih h; omega

/-- The last line begins where the last entry says. -/
theorem getLastD_lineStarts (b : Bytes) :
    (lineStarts 0 b).getLastD 0 + (lastLine b).length = b.length := by
  -- from the right: the last byte decides whether a new line begins
  induction b using List.reverseRecOn with
  | nil => rfl
  | append_singleton b x ih =>
    rw [lineStarts_append, lastLine, List.rtakeWhile_concat, List.length_append]
    by_cases hx : x = lineFeed
    · simp [lineStarts, hx]
    · have hsame : lineStarts (0 + b.length) [x] = [] := by rw [lineStarts, if_neg hx]; rfl
      rw [hsame, List.append_nil, if_pos (bne_iff_ne.2 hx), List.length_append, ← ih]
      show _ + ((lastLine b).length + _) = _
      omega

section Split

variable {n : Nat} {b : Bytes} (hn : n ≤ b.length)

include hn

/-- The table falls into the entries of the bytes before an offset and those of the rest. -/
theorem lineStarts_take_append_drop :
    lineStarts 0 b = lineStarts 0 (b.take n) ++ lineStarts n (b.drop n) := by
  have happend := lineStarts_append 0 (b.take n) (b.drop n)
  rwa [List.take_append_drop, List.length_take_of_le hn, Nat.zero_add] at happend

theorem le_of_mem_lineStarts_take {start : Nat} (h : start ∈ lineStarts 0 (b.take n)) :
    start ≤ n := by
  have hle := (bounds_of_mem_lineStarts h).2
  rwa [List.length_take_of_le hn, Nat.zero_add] at hle

theorem filter_lineStarts :
    (lineStarts 0 b).filter (· ≤ n) = lineStarts 0 (b.take n) := by
  have hbefore : ∀ s ∈ lineStarts 0 (b.take n), decide (s ≤ n) = true :=
    fun s hs => decide_eq_true (le_of_mem_lineStarts_take hn hs)
  have hafter : ∀ s ∈ lineStarts n (b.drop n), ¬ decide (s ≤ n) = true := by
    intro s hs
    have hlt := (bounds_of_mem_lineStarts hs).1
    simpa using hlt
  rw [lineStarts_take_append_drop hn, List.filter_append, List.filter_eq_self.2 hbefore,
    List.filter_eq_nil_iff.2 hafter, List.append_nil]

end Split

end Bytes

/-! ### The bytes of a text -/

namespace Text

theorem length_bytes (t : Text) : (bytes t).length = size t := by
  induction t with
  | nil => rfl
  | cons c t ih =>
    rw [bytes, List.flatMap_cons, List.length_append, String.length_utf8EncodeChar, size_cons,
      ← ih, bytes]

theorem ofNat_eq_lineFeed_iff (n : Nat) : UInt8.ofNat n = Bytes.lineFeed ↔ n % 256 = 10 := by
  rw [← UInt8.toNat_inj, UInt8.toNat_ofNat']
  rfl

/-- The byte of a line feed stands in no other character. -/
theorem lineFeed_mem_utf8EncodeChar {c : Char} (h : Bytes.lineFeed ∈ String.utf8EncodeChar c) :
    c = '\n' := by
  -- the bytes of a longer encoding are all above 127
  have hval : c.val.toNat = 10 := by
    simp only [String.utf8EncodeChar] at h
    split at h
    · have h := (ofNat_eq_lineFeed_iff _).1 (List.mem_singleton.1 h).symm
      omega
    · exfalso
      split at h
      · simp only [List.mem_cons, List.not_mem_nil, or_false, eq_comm (a := Bytes.lineFeed),
          ofNat_eq_lineFeed_iff] at h
        omega
      · split at h <;>
          · simp only [List.mem_cons, List.not_mem_nil, or_false, eq_comm (a := Bytes.lineFeed),
              ofNat_eq_lineFeed_iff] at h
            omega
  exact Char.ext (UInt32.toNat_inj.1 hval)

theorem lineStarts_utf8EncodeChar (offset : Nat) (c : Char) :
    Bytes.lineStarts offset (String.utf8EncodeChar c) = if c = '\n' then [offset + 1] else [] := by
  split
  · next hc => subst hc; rfl
  · next hc =>
    apply List.eq_nil_of_length_eq_zero
    rw [Bytes.length_lineStarts, List.count_eq_zero]
    exact fun h => hc (lineFeed_mem_utf8EncodeChar h)

end Text

/-! ### Positions -/

/-- Whether a position comes before another: by line, and by column on one line. -/
def Position.Before (p q : Position) : Prop :=
  p.line < q.line ∨ p.line = q.line ∧ p.column < q.column

namespace LineTable

open Bytes (lineFeed lastLine lineStarts)
open Text (bytes)

theorem startsFrom_eq_lineStarts (offset : Nat) (t : Text) :
    startsFrom offset t = lineStarts offset (bytes t) := by
  induction t generalizing offset with
  | nil => rfl
  | cons c t ih =>
    rw [startsFrom, bytes, List.flatMap_cons, Bytes.lineStarts_append,
      Text.lineStarts_utf8EncodeChar, String.length_utf8EncodeChar, ih, ← bytes]
    by_cases hc : c = '\n'
    · subst hc; rfl
    · simp [hc]

variable {t : Text} {n : Nat}

theorem starts_ofText (t : Text) : (ofText t).starts = 0 :: lineStarts 0 (bytes t) := by
  rw [ofText, startsFrom_eq_lineStarts]

/-- An offset past the end counts as the end. -/
theorem position_min (t : Text) (n : Nat) :
    (ofText t).position (min n (Text.size t)) = (ofText t).position n := by
  have hmin : min (min n (Text.size t)) (ofText t).size = min n (ofText t).size :=
    Nat.min_eq_left (Nat.min_le_right _ _)
  simp only [position, hmin]

section Within

variable (hn : n ≤ Text.size t)

include hn

theorem le_length_bytes : n ≤ (bytes t).length := by rwa [Text.length_bytes]

/-- The table up to an offset and after it. -/
theorem starts_split :
    (ofText t).starts =
      (0 :: lineStarts 0 ((bytes t).take n)) ++ lineStarts n ((bytes t).drop n) := by
  rw [starts_ofText, Bytes.lineStarts_take_append_drop (le_length_bytes hn), List.cons_append]

theorem position_eq :
    (ofText t).position n =
      ⟨((bytes t).take n).count lineFeed, (lastLine ((bytes t).take n)).length⟩ := by
  have hmin : min n (ofText t).size = n := Nat.min_eq_left hn
  have hbegun : (ofText t).starts.filter (· ≤ n) = 0 :: lineStarts 0 ((bytes t).take n) := by
    rw [starts_ofText, List.filter_cons_of_pos (by simp),
      Bytes.filter_lineStarts (le_length_bytes hn)]
  have hlast := Bytes.getLastD_lineStarts ((bytes t).take n)
  rw [List.length_take_of_le (le_length_bytes hn)] at hlast
  simp only [position, hmin, hbegun, List.length_cons, Bytes.length_lineStarts,
    Nat.add_sub_cancel, List.getLastD_cons, Position.mk.injEq, true_and]
  omega

/-- The entry of its line and its column together give an offset back. -/
theorem start_add_column :
    ∃ start, (ofText t).starts[((ofText t).position n).line]? = some start ∧
      start + ((ofText t).position n).column = n := by
  refine ⟨(lineStarts 0 ((bytes t).take n)).getLastD 0, ?_, ?_⟩
  · have hindex : ((ofText t).position n).line =
        (0 :: lineStarts 0 ((bytes t).take n)).length - 1 := by
      rw [position_eq hn, List.length_cons, Bytes.length_lineStarts, Nat.add_sub_cancel]
    rw [starts_split hn, hindex, List.getElem?_append_left (by simp), ← List.getLast?_eq_getElem?,
      List.getLast?_cons, List.getLastD_eq_getLast?]
  · rw [position_eq hn, Bytes.getLastD_lineStarts, List.length_take_of_le (le_length_bytes hn)]

/-- The lines up to that of an offset are those that have begun there: a search that splits the
table anywhere finds the same line. -/
theorem le_iff_of_getElem? {i start : Nat} (h : (ofText t).starts[i]? = some start) :
    start ≤ n ↔ i ≤ ((ofText t).position n).line := by
  have hlength : (0 :: lineStarts 0 ((bytes t).take n)).length =
      ((ofText t).position n).line + 1 := by
    rw [position_eq hn, List.length_cons, Bytes.length_lineStarts]
  rw [starts_split hn] at h
  by_cases hi : i ≤ ((ofText t).position n).line
  · rw [List.getElem?_append_left (by omega)] at h
    have hle : start ≤ n := by
      cases List.mem_of_getElem? h with
      | head => exact Nat.zero_le n
      | tail _ hmem => exact Bytes.le_of_mem_lineStarts_take (le_length_bytes hn) hmem
    exact iff_of_true hle hi
  · rw [List.getElem?_append_right (by omega)] at h
    have hlt := (Bytes.bounds_of_mem_lineStarts (List.mem_of_getElem? h)).1
    exact iff_of_false (by omega) hi

end Within

theorem line_le_of_le {a b : Nat} (hab : a ≤ b) (hb : b ≤ Text.size t) :
    ((ofText t).position a).line ≤ ((ofText t).position b).line := by
  obtain ⟨start, hstart, hcolumn⟩ := start_add_column (Nat.le_trans hab hb)
  exact (le_iff_of_getElem? hb hstart).1 (by omega)

theorem before_of_lt {t : Text} {a b : Nat} (hab : a < b) (hb : b ≤ Text.size t) :
    ((ofText t).position a).Before ((ofText t).position b) := by
  obtain ⟨start, hstart, hcolumn⟩ := start_add_column (Nat.le_trans (Nat.le_of_lt hab) hb)
  obtain ⟨start', hstart', hcolumn'⟩ := start_add_column hb
  rcases Nat.lt_or_eq_of_le (line_le_of_le (Nat.le_of_lt hab) hb) with hline | hline
  · exact .inl hline
  · -- on one line both columns are counted from the same entry
    rw [hline, hstart'] at hstart
    have hsame := Option.some.inj hstart
    exact .inr ⟨hline, by omega⟩

theorem before_iff {t : Text} {a b : Nat} (ha : a ≤ Text.size t) (hb : b ≤ Text.size t) :
    ((ofText t).position a).Before ((ofText t).position b) ↔ a < b := by
  refine ⟨fun hbefore => ?_, fun hab => before_of_lt hab hb⟩
  unfold Position.Before at hbefore
  rcases Nat.lt_trichotomy a b with hab | rfl | hba
  · exact hab
  · omega
  · have hafter := before_of_lt hba ha
    unfold Position.Before at hafter
    omega

theorem position_inj {t : Text} {a b : Nat} (ha : a ≤ Text.size t) (hb : b ≤ Text.size t)
    (h : (ofText t).position a = (ofText t).position b) : a = b := by
  obtain ⟨start, hstart, hcolumn⟩ := start_add_column ha
  obtain ⟨start', hstart', hcolumn'⟩ := start_add_column hb
  rw [h] at hstart hcolumn
  have hsame := Option.some.inj (hstart.symm.trans hstart')
  omega

theorem start_le_size {t : Text} {start : Nat} (h : start ∈ (ofText t).starts) :
    start ≤ Text.size t := by
  rw [starts_ofText] at h
  cases h with
  | head => exact Nat.zero_le _
  | tail _ h =>
    have hle := (Bytes.bounds_of_mem_lineStarts h).2
    rwa [Text.length_bytes, Nat.zero_add] at hle

theorem line_le_size (t : Text) (n : Nat) : ((ofText t).position n).line ≤ Text.size t := by
  rw [← position_min, position_eq (Nat.min_le_right _ _), ← Text.length_bytes]
  exact Nat.le_trans List.count_le_length (List.length_take_le' _ _)

theorem column_le_size (t : Text) (n : Nat) : ((ofText t).position n).column ≤ Text.size t := by
  rw [← position_min]
  obtain ⟨start, -, hcolumn⟩ := start_add_column (Nat.min_le_right n (Text.size t))
  omega

/-- Looking up a line is exact and can be undone.  The line of an offset is the number of line feeds
in the bytes before it, and its column the number of bytes after the last of them; the entry of the
line in the table and the column add up to the offset, and the entries up to that of the line are
those that are not past the offset.  So offsets within the text have different positions, which are
in the order of the offsets.  If the offsets of the text have 32 bits, so have all entries, lines
and columns. -/
theorem position_exact_and_ordered (t : Text) :
    (∀ offset n, n = min offset (Text.size t) →
      (ofText t).position offset =
          ⟨((bytes t).take n).count lineFeed, (lastLine ((bytes t).take n)).length⟩ ∧
        (∃ start, (ofText t).starts[((ofText t).position offset).line]? = some start ∧
          start + ((ofText t).position offset).column = n) ∧
        ∀ i start, (ofText t).starts[i]? = some start →
          (start ≤ n ↔ i ≤ ((ofText t).position offset).line)) ∧
      (∀ a b, a ≤ Text.size t → b ≤ Text.size t →
        ((ofText t).position a = (ofText t).position b → a = b) ∧
          (((ofText t).position a).Before ((ofText t).position b) ↔ a < b)) ∧
      (Text.size t < Span.offsetLimit →
        (∀ start ∈ (ofText t).starts, start < Span.offsetLimit) ∧
          ∀ offset, ((ofText t).position offset).line < Span.offsetLimit ∧
            ((ofText t).position offset).column < Span.offsetLimit) := by
  refine ⟨?_, fun a b ha hb => ⟨position_inj ha hb, before_iff ha hb⟩, fun ht => ⟨?_, ?_⟩⟩
  · rintro offset n rfl
    have hn : min offset (Text.size t) ≤ Text.size t := Nat.min_le_right _ _
    rw [← position_min t offset]
    exact ⟨position_eq hn, start_add_column hn, fun i start => le_iff_of_getElem? hn⟩
  · exact fun start hstart => Nat.lt_of_le_of_lt (start_le_size hstart) ht
  · exact fun offset =>
      ⟨Nat.lt_of_le_of_lt (line_le_size t offset) ht,
        Nat.lt_of_le_of_lt (column_le_size t offset) ht⟩

/-- A text with a long character, an empty line and an offset past its end. -/
theorem position_exact_and_ordered_accent :
    5 = min 9 (Text.size ['é', '\n', '\n', 'x']) ∧
      (ofText ['é', '\n', '\n', 'x']).position 9 = ⟨2, 1⟩ ∧
      (3 ≤ Text.size ['é', '\n', '\n', 'x'] ∧ 4 ≤ Text.size ['é', '\n', '\n', 'x'] ∧
        ((ofText ['é', '\n', '\n', 'x']).position 3).Before
          ((ofText ['é', '\n', '\n', 'x']).position 4)) ∧
      Text.size ['é', '\n', '\n', 'x'] < Span.offsetLimit ∧
      ((ofText ['é', '\n', '\n', 'x']).position 9).line < Span.offsetLimit := by
  obtain ⟨hexact, hordered, hsmall⟩ := position_exact_and_ordered ['é', '\n', '\n', 'x']
  refine ⟨by decide, ?_, ⟨by decide, by decide, ?_⟩, by decide, ?_⟩
  · exact (hexact 9 5 (by decide)).1.trans (by decide)
  · exact (hordered 3 4 (by decide) (by decide)).2.2 (by decide)
  · exact ((hsmall (by decide)).2 9).1

end LineTable

end Wxml
