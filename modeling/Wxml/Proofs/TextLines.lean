import Mathlib.Data.List.DropRight
import Wxml.Proofs.LayoutContent

/-!
# The lines of a text

`Text.pieces` are the lines of a text without the blanks around them, blank lines aside.  Blanks at
the ends of a text do not change them, and a text fits on one line exactly if it has one piece
(`Text.length_pieces_eq_one_iff`).
-/

namespace Wxml

namespace Text

/-! ### Trimming -/

theorem allBlank_append (s t : Text) : allBlank (s ++ t) = (allBlank s && allBlank t) :=
  List.all_append

/-- A text without blanks at either end. -/
structure Trimmed (t : Text) : Prop where
  start : ∀ c, t.head? = some c → isBlank c = false
  stop : ∀ c, t.reverse.head? = some c → isBlank c = false

theorem isBlank_of_head?_dropWhile {t : Text} {c : Char}
    (h : (t.dropWhile isBlank).head? = some c) : isBlank c = false := by
  have := List.head?_dropWhile_not isBlank t
  rwa [h] at this

theorem isPrefix_trimEnd (t : Text) : trimEnd t <+: t := List.rdropWhile_prefix isBlank t

theorem trimmed_trim (t : Text) : Trimmed (trim t) where
  start := by
    intro c hc
    obtain ⟨rest, hrest⟩ := isPrefix_trimEnd (trimStart t)
    apply isBlank_of_head?_dropWhile (t := t)
    show (trimStart t).head? = some c
    rw [← hrest, List.head?_append]
    exact Option.or_eq_some_iff.2 (.inl hc)
  stop := by
    intro c hc
    apply isBlank_of_head?_dropWhile (t := (trimStart t).reverse)
    rwa [trim, trimEnd, dropEndWhile, List.reverse_reverse] at hc

theorem exists_eq_trimEnd_append (t : Text) :
    ∃ gap, allBlank gap = true ∧ t = trimEnd t ++ gap := by
  refine ⟨(t.reverse.takeWhile isBlank).reverse, ?_, ?_⟩
  · rw [allBlank, List.all_reverse]
    exact List.all_takeWhile
  · rw [trimEnd, dropEndWhile, ← List.reverse_append, List.takeWhile_append_dropWhile,
      List.reverse_reverse]

theorem exists_eq_append_trim (t : Text) :
    ∃ a b, allBlank a = true ∧ allBlank b = true ∧ t = a ++ (trim t ++ b) := by
  obtain ⟨b, hb, hstop⟩ := exists_eq_trimEnd_append (trimStart t)
  refine ⟨t.takeWhile isBlank, b, List.all_takeWhile, hb, ?_⟩
  rw [trim, ← hstop, trimStart, List.takeWhile_append_dropWhile]

/-- The one trimmed text between blanks is what trimming leaves. -/
theorem trim_append_append {a t b : Text} (ha : allBlank a = true) (ht : Trimmed t)
    (hb : allBlank b = true) : trim (a ++ (t ++ b)) = t := by
  have hreverse : ∀ c ∈ b.reverse, isBlank c = true :=
    fun c hc => List.all_eq_true.1 hb c (List.mem_reverse.1 hc)
  rw [trim, trimStart, List.dropWhile_append_of_pos (List.all_eq_true.1 ha)]
  cases hhead : t.head? with
  | none =>
    rw [List.head?_eq_none_iff] at hhead
    subst hhead
    rw [List.nil_append, List.dropWhile_eq_nil_iff.2 (List.all_eq_true.1 hb)]
    rfl
  | some c =>
    have hstart : (t ++ b).dropWhile isBlank = t ++ b := by
      obtain ⟨rest, rfl⟩ := List.head?_eq_some_iff.1 hhead
      rw [List.cons_append, List.dropWhile_cons_of_neg (by simp [ht.start c hhead])]
    have hstop : t.reverse.dropWhile isBlank = t.reverse := by
      cases hlast : t.reverse with
      | nil => rfl
      | cons d rest =>
        rw [List.dropWhile_cons_of_neg (by simp [ht.stop d (by rw [hlast]; rfl)])]
    rw [hstart, trimEnd, dropEndWhile, List.reverse_append, List.dropWhile_append_of_pos hreverse,
      hstop, List.reverse_reverse]

theorem trim_append_right (t : Text) {w : Text} (hw : allBlank w = true) :
    trim (t ++ w) = trim t := by
  obtain ⟨a, b, ha, hb, ht⟩ := exists_eq_append_trim t
  have hblank : allBlank (b ++ w) = true := by rw [allBlank_append, hb, hw]; rfl
  calc trim (t ++ w) = trim (a ++ (trim t ++ (b ++ w))) := by nth_rewrite 1 [ht]; simp
    _ = trim t := trim_append_append ha (trimmed_trim t) hblank

theorem trim_append_left (t : Text) {w : Text} (hw : allBlank w = true) :
    trim (w ++ t) = trim t := by
  obtain ⟨a, b, ha, hb, ht⟩ := exists_eq_append_trim t
  have hblank : allBlank (w ++ a) = true := by rw [allBlank_append, hw, ha]; rfl
  calc trim (w ++ t) = trim ((w ++ a) ++ (trim t ++ b)) := by nth_rewrite 1 [ht]; simp
    _ = trim t := trim_append_append hblank (trimmed_trim t) hb

theorem trim_of_trimmed {t : Text} (h : Trimmed t) : trim t = t := by
  have := trim_append_append (a := []) (b := []) rfl h rfl
  simpa using this

theorem trim_eq_nil_iff {t : Text} : trim t = [] ↔ allBlank t = true := by
  constructor
  · intro h
    rw [← solid_eq_nil_iff, ← solid_trim, h, solid_nil]
  · intro h
    have := trim_append_append (t := []) h ⟨by simp, by simp⟩ (b := []) rfl
    simpa using this

@[simp]
theorem trim_nil : trim [] = [] := rfl

@[simp]
theorem trim_trim (t : Text) : trim (trim t) = trim t := trim_of_trimmed (trimmed_trim t)

theorem mem_of_mem_trim {t : Text} {c : Char} (h : c ∈ trim t) : c ∈ t := by
  obtain ⟨a, b, -, -, ht⟩ := exists_eq_append_trim t
  rw [ht]
  simp [h]

/-! ### Lines -/

theorem splitOn_of_not_mem {sep : Char} {t : Text} (h : sep ∉ t) : splitOn sep t = [t] := by
  induction t with
  | nil => rfl
  | cons c t ih =>
    rw [List.mem_cons, not_or] at h
    rw [splitOn, if_neg (by simpa using Ne.symm h.1), ih h.2]

theorem not_mem_of_mem_splitOn {sep : Char} {t part : Text} (h : part ∈ splitOn sep t) :
    sep ∉ part := by
  induction t generalizing part with
  | nil =>
    rw [List.mem_singleton.1 h]
    simp
  | cons c t ih =>
    by_cases hc : c = sep
    · rw [splitOn, if_pos (by simpa using hc)] at h
      rcases List.mem_cons.1 h with rfl | hlater
      · simp
      · exact ih hlater
    · rw [splitOn, if_neg (by simpa using hc)] at h
      cases hparts : splitOn sep t with
      | nil => exact absurd hparts (splitOn_ne_nil sep t)
      | cons first parts =>
        rw [hparts] at h ih
        rcases List.mem_cons.1 h with rfl | hlater
        · rw [List.mem_cons, not_or]
          exact ⟨Ne.symm hc, ih List.mem_cons_self⟩
        · exact ih (List.mem_cons_of_mem _ hlater)

theorem splitOn_append_cons (sep : Char) (s t : Text) :
    splitOn sep (s ++ sep :: t) = splitOn sep s ++ splitOn sep t := by
  induction s with
  | nil => simp [splitOn]
  | cons c s ih =>
    rw [List.cons_append, splitOn, splitOn, ih]
    by_cases hc : c = sep
    · rw [if_pos (by simpa using hc), if_pos (by simpa using hc)]
      rfl
    · rw [if_neg (by simpa using hc), if_neg (by simpa using hc)]
      cases hparts : splitOn sep s with
      | nil => exact absurd hparts (splitOn_ne_nil sep s)
      | cons part parts => rfl

theorem splitOn_join {sep : Char} {parts : List Text} (hne : parts ≠ [])
    (hsep : ∀ part ∈ parts, sep ∉ part) : splitOn sep (join [sep] parts) = parts := by
  induction parts with
  | nil => exact absurd rfl hne
  | cons part parts ih =>
    obtain ⟨hpart, hparts⟩ := List.forall_mem_cons.1 hsep
    by_cases hlast : parts = []
    · rw [hlast, join, splitOn_of_not_mem hpart]
    · rw [join_cons hlast, List.append_assoc, List.singleton_append, splitOn_append_cons,
        splitOn_of_not_mem hpart, ih hlast hparts, List.singleton_append]

theorem isInfix_of_mem_splitOn {sep : Char} {t part : Text} (h : part ∈ splitOn sep t) :
    part <:+: t := by
  have hjoin : ∀ parts : List Text, part ∈ parts → part <:+: join [sep] parts := by
    intro parts hpart
    induction parts with
    | nil => cases hpart
    | cons first parts ih =>
      by_cases hlast : parts = []
      · rw [hlast, List.mem_singleton] at hpart
        rw [hlast, join, hpart]
      · rw [join_cons hlast]
        rcases List.mem_cons.1 hpart with rfl | hlater
        · exact ⟨[], [sep] ++ join [sep] parts, by simp⟩
        · exact (ih hlater).trans (List.suffix_append _ _).isInfix
  have hin := hjoin _ h
  rwa [join_splitOn] at hin

/-- What comes after the last separator is added to the last part. -/
theorem exists_splitOn_append {sep : Char} (t : Text) {u : Text} (hu : sep ∉ u) :
    ∃ parts last, splitOn sep t = parts ++ [last] ∧
      splitOn sep (t ++ u) = parts ++ [last ++ u] := by
  induction t with
  | nil => exact ⟨[], [], rfl, splitOn_of_not_mem hu⟩
  | cons c t ih =>
    obtain ⟨parts, last, ht, htu⟩ := ih
    rw [List.cons_append, splitOn, splitOn, ht, htu]
    by_cases hc : c = sep
    · rw [if_pos (by simpa using hc), if_pos (by simpa using hc)]
      exact ⟨[] :: parts, last, rfl, rfl⟩
    · rw [if_neg (by simpa using hc), if_neg (by simpa using hc)]
      cases parts with
      | nil => exact ⟨[], c :: last, rfl, rfl⟩
      | cons part parts => exact ⟨(c :: part) :: parts, last, rfl, rfl⟩

/-- Some lines without the blanks around them, and without those that are blank. -/
def trimmedLines (ls : List Text) : List Text := (ls.map trim).filter (!·.isEmpty)

/-- The lines of a text without the blanks around them. -/
def pieces (t : Text) : List Text := trimmedLines (splitOn '\n' t)

@[simp]
theorem trimmedLines_append (ls ls' : List Text) :
    trimmedLines (ls ++ ls') = trimmedLines ls ++ trimmedLines ls' := by
  simp [trimmedLines]

theorem trimmedLines_cons (l : Text) (ls : List Text) :
    trimmedLines (l :: ls) = (if allBlank l then [] else [trim l]) ++ trimmedLines ls := by
  by_cases hl : allBlank l = true
  · simp [trimmedLines, hl, trim_eq_nil_iff.2 hl]
  · have hne : trim l ≠ [] := fun h => hl (trim_eq_nil_iff.1 h)
    simp [trimmedLines, hl, hne]

theorem pieces_append_break (s t : Text) : pieces (s ++ '\n' :: t) = pieces s ++ pieces t := by
  rw [pieces, splitOn_append_cons, trimmedLines_append]
  rfl

theorem pieces_append_right (t : Text) {w : Text} (hw : allBlank w = true) :
    pieces (t ++ w) = pieces t := by
  induction w generalizing t with
  | nil => rw [List.append_nil]
  | cons c w ih =>
    rw [allBlank, List.all_cons, Bool.and_eq_true] at hw
    by_cases hc : c = '\n'
    · have hnone : pieces w = [] := ih [] hw.2
      rw [hc, pieces_append_break, hnone, List.append_nil]
    · have hcut : pieces (t ++ [c]) = pieces t := by
        have hsep : '\n' ∉ [c] := by simpa using Ne.symm hc
        have hblank : allBlank [c] = true := by simpa [allBlank] using hw.1
        obtain ⟨parts, last, ht, htc⟩ := exists_splitOn_append t hsep
        rw [pieces, pieces, ht, htc, trimmedLines_append, trimmedLines_append,
          trimmedLines_cons, trimmedLines_cons, allBlank_append, hblank, Bool.and_true,
          trim_append_right last hblank]
      rw [← hcut, ← ih (t ++ [c]) hw.2, List.append_assoc]
      rfl

theorem pieces_append_left {w : Text} (hw : allBlank w = true) (t : Text) :
    pieces (w ++ t) = pieces t := by
  induction w with
  | nil => rfl
  | cons c w ih =>
    rw [allBlank, List.all_cons, Bool.and_eq_true] at hw
    rw [← ih hw.2]
    by_cases hc : c = '\n'
    · rw [hc]
      exact pieces_append_break [] (w ++ t)
    · have hblank : allBlank [c] = true := by simpa [allBlank] using hw.1
      rw [pieces, pieces, List.cons_append, splitOn, if_neg (by simpa using hc)]
      cases hparts : splitOn '\n' (w ++ t) with
      | nil => exact absurd hparts (splitOn_ne_nil _ _)
      | cons part parts =>
        show trimmedLines (([c] ++ part) :: parts) = trimmedLines (part :: parts)
        rw [trimmedLines_cons, trimmedLines_cons, allBlank_append, hblank, Bool.true_and,
          trim_append_left part hblank]

theorem pieces_trim (t : Text) : pieces (trim t) = pieces t := by
  obtain ⟨a, b, ha, hb, ht⟩ := exists_eq_append_trim t
  nth_rewrite 2 [ht]
  rw [pieces_append_left ha, pieces_append_right _ hb]

theorem solid_flatten_trimmedLines (ls : List Text) :
    solid (trimmedLines ls).flatten = solid ls.flatten := by
  induction ls with
  | nil => rfl
  | cons l ls ih =>
    rw [trimmedLines_cons, List.flatten_append, List.flatten_cons, solid_append, solid_append, ih]
    split
    · rename_i hblank
      rw [solid_eq_nil_iff.2 hblank, List.flatten_nil, solid_nil]
    · rw [List.flatten_singleton, solid_trim]

theorem pieces_ne_nil {t : Text} (h : allBlank t = false) : pieces t ≠ [] := by
  intro hnil
  have hsolid := solid_flatten_trimmedLines (splitOn '\n' t)
  rw [solid_flatten_splitOn (by decide)] at hsolid
  rw [show trimmedLines (splitOn '\n' t) = [] from hnil] at hsolid
  rw [solid_eq_nil_iff.1 hsolid.symm] at h
  cases h

theorem allBlank_eq_false {t : Text} {c : Char} (hmem : c ∈ t) (hc : isBlank c = false) :
    allBlank t = false := by
  rw [allBlank, List.all_eq_false]
  exact ⟨c, hmem, by simp [hc]⟩

/-- A text fits on one line exactly if it has one piece. -/
theorem length_pieces_eq_one_iff (t : Text) :
    (pieces t).length = 1 ↔ trim t ≠ [] ∧ '\n' ∉ trim t := by
  have htrimmed := trimmed_trim t
  rw [← pieces_trim]
  constructor
  · intro h
    refine ⟨fun hnil => ?_, fun hmem => ?_⟩
    · rw [hnil] at h
      cases h
    · -- The first and the last character are not blank, so there is a piece on either side.
      obtain ⟨s, u, hsu⟩ := List.append_of_mem hmem
      rw [hsu] at htrimmed
      have hs : pieces s ≠ [] := by
        cases s with
        | nil => exact absurd (htrimmed.start '\n' rfl) (by decide)
        | cons c s =>
          exact pieces_ne_nil (allBlank_eq_false List.mem_cons_self (htrimmed.start c rfl))
      have hu : pieces u ≠ [] := by
        rcases List.eq_nil_or_concat u with rfl | ⟨u, c, rfl⟩
        · exact absurd (htrimmed.stop '\n' (by simp)) (by decide)
        · exact pieces_ne_nil (allBlank_eq_false (by simp) (htrimmed.stop c (by simp)))
      rw [hsu, pieces_append_break, List.length_append] at h
      have hs := List.length_pos_iff.2 hs
      have hu := List.length_pos_iff.2 hu
      omega
  · rintro ⟨hne, hbreak⟩
    have hsolid : allBlank (trim t) ≠ true := by
      intro hblank
      rw [← trim_eq_nil_iff, trim_trim] at hblank
      exact hne hblank
    rw [pieces, splitOn_of_not_mem hbreak, trimmedLines_cons, if_neg hsolid]
    rfl

end Text

end Wxml
