import Mathlib.Data.List.Infix
import Wxml.Text

/-!
# Cutting texts

How the ways of cutting a text work on one that is put together from known parts: `t ++ rest`, where
the cut is between `t` and `rest`.  An occurrence of a closing pattern across the cut is excluded by
the characters of the pattern (`not_isPrefix_append_of_comment`, `not_isPrefix_append_of_braces`).
-/

namespace Wxml

theorem toNat_of_isAlpha {c : Char} (h : c.isAlpha = true) : 65 ≤ c.toNat ∧ c.toNat ≤ 122 := by
  have hrange : (decide ('A'.val ≤ c.val ∧ c.val ≤ 'Z'.val) ||
      (decide ('a'.val ≤ c.val) && decide (c.val ≤ 'z'.val))) = true := h
  simp only [Bool.or_eq_true, Bool.and_eq_true, decide_eq_true_eq, UInt32.le_iff_toNat_le] at hrange
  have hA : 'A'.val.toNat = 65 := rfl
  have hZ : 'Z'.val.toNat = 90 := rfl
  have ha : 'a'.val.toNat = 97 := rfl
  have hz : 'z'.val.toNat = 122 := rfl
  have hc : c.toNat = c.val.toNat := rfl
  omega

theorem isBlank_of_isAlpha {c : Char} (h : c.isAlpha = true) : isBlank c = false := by
  obtain ⟨hlow, hhigh⟩ := toNat_of_isAlpha h
  simp only [isBlank]
  grind

theorem isAlpha_of_toLower {c : Char} (h : c.toLower.isAlpha = true) : c.isAlpha = true := by
  unfold Char.toLower at h
  split at h
  · rename_i hupper
    have hc : c.isUpper = true := decide_eq_true hupper
    show (c.isUpper || c.isLower) = true
    rw [hc, Bool.true_or]
  · exact h

theorem ne_of_isBlank {c q : Char} (hc : isBlank c = true) (hq : isBlank q = false) : c ≠ q := by
  rintro rfl
  rw [hq] at hc
  cases hc

namespace Text

/-- A condition on the character that a text starts with, if it has one. -/
theorem forall_head?_cons {p : Char → Prop} {d : Char} {t : Text} (h : p d) :
    ∀ c, (d :: t).head? = some c → p c := by
  rintro c ⟨⟩
  exact h

/-- The longest stretch of characters that satisfy `p` ends where one does not. -/
theorem takeWhile_append_stop {p : Char → Bool} {t rest : Text} (h : ∀ c ∈ t, p c = true)
    (hrest : ∀ c, rest.head? = some c → p c = false) : (t ++ rest).takeWhile p = t := by
  rw [List.takeWhile_append_of_pos h]
  cases rest with
  | nil => simp
  | cons c rest => simp [hrest c rfl]

/-- What is left after the longest stretch of characters that satisfy `p`. -/
theorem dropWhile_append_stop {p : Char → Bool} {t rest : Text} (h : ∀ c ∈ t, p c = true)
    (hrest : ∀ c, rest.head? = some c → p c = false) : (t ++ rest).dropWhile p = rest := by
  rw [List.dropWhile_append_of_pos h]
  cases rest with
  | nil => rfl
  | cons c rest => simp [hrest c rfl]

/-- A pattern that a text starts with ends before a character that is not in it. -/
theorem prefix_of_prefix_append {pattern t rest : Text} (h : pattern <+: t ++ rest)
    (hrest : ∀ c, rest.head? = some c → c ∉ pattern) : pattern <+: t := by
  rcases List.prefix_or_prefix_of_prefix h (List.prefix_append t rest) with hprefix | ⟨u, rfl⟩
  · exact hprefix
  · cases u with
    | nil => simp
    | cons d u =>
      obtain ⟨v, hv⟩ := (List.prefix_append_right_inj t).1 h
      exact absurd (by simp) (hrest d (by simp [← hv]))

/-- A text is split before the first occurrence of a pattern. -/
theorem breakOn_append_of_not_isPrefix {pattern t rest : Text} (hpattern : pattern <+: rest)
    (hne : pattern ≠ []) (h : ∀ u, u ≠ [] → u <:+ t → ¬ pattern <+: u ++ rest) :
    breakOn pattern (t ++ rest) = (t, rest) := by
  induction t with
  | nil =>
    cases rest with
    | nil => exact absurd (List.prefix_nil.1 hpattern) hne
    | cons c rest => simp [breakOn, hpattern]
  | cons c t ih =>
    have hfirst : ¬ pattern.isPrefixOf (c :: (t ++ rest)) = true := by
      rw [List.isPrefixOf_iff_prefix]
      exact h (c :: t) (by simp) (List.suffix_refl _)
    have hrest := ih fun u hu hsuffix => h u hu (hsuffix.trans (List.suffix_cons c t))
    rw [List.cons_append, breakOn, if_neg hfirst, hrest]

/-- Before the split no occurrence of the pattern starts. -/
theorem not_isPrefix_of_breakOn (pattern t : Text) {u : Text} (hu : u ≠ [])
    (hsuffix : u <:+ (breakOn pattern t).1) : ¬ pattern <+: u ++ (breakOn pattern t).2 := by
  induction t with
  | nil => exact absurd (List.suffix_nil.1 hsuffix) hu
  | cons c t ih =>
    rw [breakOn] at hsuffix ⊢
    split at hsuffix
    · exact absurd (List.suffix_nil.1 hsuffix) hu
    · rename_i hfirst
      rw [if_neg hfirst]
      cases List.suffix_cons_iff.1 hsuffix with
      | inl whole =>
        rw [whole, List.cons_append, breakOn_append]
        rwa [← List.isPrefixOf_iff_prefix]
      | inr later => exact ih later

/-- The split is before an occurrence of the pattern, or at the end. -/
theorem breakOn_snd_cases (pattern t : Text) :
    (breakOn pattern t).2 = [] ∨ pattern <+: (breakOn pattern t).2 := by
  induction t with
  | nil => exact .inl rfl
  | cons c t ih =>
    rw [breakOn]
    split
    · rename_i hfirst
      exact .inr (List.isPrefixOf_iff_prefix.1 hfirst)
    · exact ih

theorem not_isInfix_breakOn {pattern : Text} (t : Text) (hne : pattern ≠ []) :
    ¬ pattern <:+: (breakOn pattern t).1 := by
  rintro ⟨before, after, heq⟩
  refine not_isPrefix_of_breakOn pattern t (u := pattern ++ after) (by simp [hne])
    ⟨before, by simpa using heq⟩ ?_
  rw [List.append_assoc]
  exact List.prefix_append _ _

theorem breakOn_of_not_isInfix {pattern t : Text} (h : ¬ pattern <:+: t) :
    breakOn pattern t = (t, []) := by
  have hwhole := breakOn_append pattern t
  have hrest : (breakOn pattern t).2 = [] := by
    refine (breakOn_snd_cases pattern t).resolve_right fun hfound => h ?_
    rw [← hwhole]
    exact hfound.isInfix.trans (List.suffix_append ..).isInfix
  rw [hrest, List.append_nil] at hwhole
  exact Prod.ext hwhole hrest

theorem after?_eq_some_iff {pattern t rest : Text} :
    after? pattern t = some rest ↔ t = pattern ++ rest := by
  induction pattern generalizing t with
  | nil => simp [after?]
  | cons p pattern ih =>
    cases t with
    | nil => simp [after?]
    | cons c t =>
      by_cases hpc : p = c
      · simp [after?, hpc, ih]
      · simp [after?, hpc, Ne.symm hpc]

/-- The parts of a text are made of its characters. -/
theorem mem_of_mem_splitOn {sep : Char} {t part : Text} (hpart : part ∈ splitOn sep t) {c : Char}
    (hc : c ∈ part) : c ∈ t := by
  induction t generalizing part with
  | nil =>
    rw [List.mem_singleton.1 hpart] at hc
    cases hc
  | cons d t ih =>
    rw [splitOn] at hpart
    split at hpart
    · cases List.mem_cons.1 hpart with
      | inl first =>
        rw [first] at hc
        cases hc
      | inr later => exact List.mem_cons_of_mem _ (ih later hc)
    · split at hpart
      · rw [List.mem_singleton.1 hpart] at hc
        exact List.mem_cons.2 (.inl (List.mem_singleton.1 hc))
      · rename_i first others hsplit
        cases List.mem_cons.1 hpart with
        | inl same =>
          rw [same] at hc
          cases List.mem_cons.1 hc with
          | inl head => exact List.mem_cons.2 (.inl head)
          | inr tail =>
            exact List.mem_cons_of_mem _ (ih (by rw [hsplit]; exact List.mem_cons_self ..) tail)
        | inr later =>
          exact List.mem_cons_of_mem _ (ih (by rw [hsplit]; exact List.mem_cons_of_mem _ later) hc)

/-- No `-->` starts inside a text without one that a `-->` follows. -/
theorem not_isPrefix_append_of_comment {t u : Text} (rest : Text) (h : ¬ ("-->" : Text) <:+: t)
    (hu : u ≠ []) (hsuffix : u <:+ t) : ¬ ("-->" : Text) <+: u ++ ("-->" ++ rest) := by
  match u with
  | [a] => simp
  | [a, b] => simp
  | a :: b :: c :: u =>
    intro hprefix
    simp only [String.reduceToList, List.cons_append, List.cons_prefix_cons, List.nil_prefix,
      and_true] at hprefix
    obtain ⟨rfl, rfl, rfl⟩ := hprefix
    obtain ⟨before, rfl⟩ := hsuffix
    exact h ⟨before, u, by simp⟩

/-- No `}}` starts inside a text without one that does not end with a brace, if `}}`
follows it. -/
theorem not_isPrefix_append_of_braces {t u : Text} (rest : Text)
    (h : ¬ ("\x7d\x7d" : Text) <:+: t) (hlast : t.getLast? ≠ some '\x7d') (hu : u ≠ [])
    (hsuffix : u <:+ t) : ¬ ("\x7d\x7d" : Text) <+: u ++ ("\x7d\x7d" ++ rest) := by
  obtain ⟨before, rfl⟩ := hsuffix
  match u with
  | [a] =>
    intro hprefix
    simp only [String.reduceToList, List.cons_append, List.cons_prefix_cons] at hprefix
    exact hlast (by simp [← hprefix.1])
  | a :: b :: u =>
    intro hprefix
    simp only [String.reduceToList, List.cons_append, List.cons_prefix_cons, List.nil_prefix,
      and_true] at hprefix
    obtain ⟨rfl, rfl⟩ := hprefix
    exact h ⟨before, u, by simp⟩

/-! ### Bytes at the start of a text -/

theorem dropBytes?_size_append (s : Text) (n : Nat) (t : Text) :
    dropBytes? (size s + n) (s ++ t) = dropBytes? n t := by
  induction s with
  | nil => rw [size_nil, Nat.zero_add, List.nil_append]
  | cons c s ih =>
    have hpos := c.utf8Size_pos
    obtain ⟨k, hk⟩ : ∃ k, size (c :: s) + n = k + 1 := ⟨size (c :: s) + n - 1, by
      rw [size_cons]
      omega⟩
    have hrest : k + 1 - c.utf8Size = size s + n := by
      rw [← hk, size_cons]
      omega
    rw [hk, List.cons_append, dropBytes?, if_pos, hrest, ih]
    rw [← hk, size_cons]
    omega

theorem dropBytes?_size (s t : Text) : dropBytes? (size s) (s ++ t) = some t := by
  have h := dropBytes?_size_append s 0 t
  rwa [Nat.add_zero, dropBytes?] at h

theorem exists_of_dropBytes? {n : Nat} {t rest : Text} (h : dropBytes? n t = some rest) :
    ∃ before, t = before ++ rest ∧ size before = n := by
  fun_induction dropBytes? n t with
  | case1 t => exact ⟨[], Option.some.inj h, rfl⟩
  | case2 n => cases h
  | case3 n c t hle ih =>
    obtain ⟨before, rfl, hsize⟩ := ih h
    refine ⟨c :: before, rfl, ?_⟩
    rw [size_cons]
    omega
  | case4 => cases h

theorem isSuffix_of_dropBytes? {n : Nat} {t rest : Text} (h : dropBytes? n t = some rest) :
    rest <:+ t := by
  obtain ⟨before, rfl, -⟩ := exists_of_dropBytes? h
  exact List.suffix_append before rest

theorem takeBytes?_size (s t : Text) : takeBytes? (size s) (s ++ t) = some s := by
  induction s with
  | nil => cases t <;> rfl
  | cons c s ih =>
    have hpos := c.utf8Size_pos
    obtain ⟨k, hk⟩ : ∃ k, size (c :: s) = k + 1 := ⟨size (c :: s) - 1, by
      rw [size_cons]
      omega⟩
    have hrest : k + 1 - c.utf8Size = size s := by
      rw [← hk, size_cons]
      omega
    rw [hk, List.cons_append, takeBytes?, if_pos, hrest, ih, Option.map_some]
    rw [← hk, size_cons]
    omega

theorem slice?_append (before piece after : Text) :
    slice? (before ++ (piece ++ after)) (size before) (size before + size piece) = some piece := by
  rw [slice?, if_pos (Nat.le_add_right _ _), dropBytes?_size, Option.bind_some,
    Nat.add_sub_cancel_left, takeBytes?_size]

end Text

end Wxml
