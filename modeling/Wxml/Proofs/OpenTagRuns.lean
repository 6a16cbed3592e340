import Wxml.OpenTags

/-!
# Runs of the open tags

A run opens and closes tags in any order.  Every tag that it opens is at its end in one of three
places: still open, closed by its own name, or dropped because a tag around it was closed.  So the
entries balance, and a name is closed at most as often as it was opened.
-/

namespace Wxml.OpenTags

/-! ### Closing one tag -/

theorem find?_eq_none {tag : Text} {entries : List Text} :
    find? tag entries = none ↔ tag ∉ entries := by
  induction entries with
  | nil => simp [find?]
  | cons t ts ih =>
    by_cases h : t = tag
    · simp [find?, h]
    · simp [find?, h, ih, Ne.symm h]

/-- The entry that is found is the first one of its name. -/
theorem exists_above_of_find? {tag : Text} {entries below : List Text} {orphans : Nat}
    (h : find? tag entries = some (orphans, below)) :
    ∃ above, entries = above ++ tag :: below ∧ above.length = orphans ∧ tag ∉ above := by
  induction entries generalizing orphans with
  | nil => simp [find?] at h
  | cons t ts ih =>
    by_cases ht : t = tag
    · obtain ⟨rfl, rfl⟩ : 0 = orphans ∧ ts = below := by simpa [find?, ht] using h
      exact ⟨[], by simp [ht], rfl, by simp⟩
    · obtain ⟨n, hn, rfl⟩ : ∃ n, find? tag ts = some (n, below) ∧ n + 1 = orphans := by
        simpa [find?, ht] using h
      obtain ⟨above, rfl, rfl, hnot⟩ := ih hn
      exact ⟨t :: above, rfl, rfl, by simp [hnot, Ne.symm ht]⟩

/-- What closing `tag` may answer, and the stack that it then leaves. -/
inductive Closing (s : OpenTags) (tag : Text) : Outcome → OpenTags → Prop where
  | unmatched (absent : tag ∉ s.entries) : Closing s tag .unmatched s
  | closed (above below : List Text) (split : s.entries = above ++ tag :: below)
      (innermost : tag ∉ above) : Closing s tag (.closed above.length) ⟨below⟩

theorem closing_close (s : OpenTags) (tag : Text) :
    Closing s tag (s.close tag).1 (s.close tag).2 := by
  unfold close
  cases h : find? tag s.entries with
  | none => exact .unmatched (find?_eq_none.mp h)
  | some found =>
    obtain ⟨orphans, below⟩ := found
    obtain ⟨above, split, rfl, innermost⟩ := exists_above_of_find? h
    exact .closed above below split innermost

section

variable {s after : OpenTags} {tag : Text} {outcome : Outcome}

theorem Closing.unmatched_iff (h : Closing s tag outcome after) :
    outcome = .unmatched ↔ tag ∉ s.entries := by
  cases h with
  | unmatched absent => simp [absent]
  | closed above below split innermost => simp [split]

theorem Closing.eq_of_unmatched (h : Closing s tag outcome after) (refused : outcome = .unmatched) :
    after = s := by
  cases h with
  | unmatched absent => rfl
  | closed above below split innermost => cases refused

theorem Closing.exists_above {orphans : Nat} (h : Closing s tag (.closed orphans) after) :
    ∃ above, s.entries = above ++ tag :: after.entries ∧ above.length = orphans ∧ tag ∉ above := by
  cases h with
  | closed above below split innermost => exact ⟨above, split, rfl, innermost⟩

theorem Closing.count_after {orphans : Nat} (h : Closing s tag (.closed orphans) after) :
    after.entries.count tag + 1 = s.entries.count tag := by
  obtain ⟨above, split, -, innermost⟩ := h.exists_above
  rw [split, List.count_append, List.count_eq_zero_of_not_mem innermost, List.count_cons_self,
    Nat.zero_add]

end

/-! ### Runs -/

/-- One use of the stack. -/
inductive Action where
  | push (tag : Text)
  | close (tag : Text)
  deriving DecidableEq, Repr

/-- The stack after the actions. -/
def run (s : OpenTags) : List Action → OpenTags
  | [] => s
  | .push tag :: actions => (s.push tag).run actions
  | .close tag :: actions => (s.close tag).2.run actions

/-- What each closing of the run answered, with the name that it asked for. -/
def answers (s : OpenTags) : List Action → List (Text × Outcome)
  | [] => []
  | .push tag :: actions => (s.push tag).answers actions
  | .close tag :: actions => (tag, (s.close tag).1) :: (s.close tag).2.answers actions

/-- The names that the actions open. -/
def pushed : List Action → List Text
  | [] => []
  | .push tag :: actions => tag :: pushed actions
  | .close _ :: actions => pushed actions

/-- The entries that an answer took off the stack: the closed one and those inside it. -/
def Outcome.taken : Outcome → Nat
  | closed orphans => orphans + 1
  | unmatched => 0

/-- The entries that all answers together took. -/
def taken : List (Text × Outcome) → Nat
  | [] => 0
  | (_, outcome) :: rest => outcome.taken + taken rest

/-- The names that were asked for and closed. -/
def closedNames : List (Text × Outcome) → List Text
  | [] => []
  | (tag, .closed _) :: rest => tag :: closedNames rest
  | (_, .unmatched) :: rest => closedNames rest

theorem closedNames_cons (tag : Text) (outcome : Outcome) (rest : List (Text × Outcome)) :
    closedNames ((tag, outcome) :: rest) = closedNames [(tag, outcome)] ++ closedNames rest := by
  cases outcome <;> rfl

/-- Every one of the `opened` entries was closed by name, is still open or was dropped from inside
a closed one. -/
def Balanced (opened left : List Text) (found : List (Text × Outcome)) : Prop :=
  ∃ dropped : List Text, opened.Perm (closedNames found ++ left ++ dropped) ∧
    (closedNames found).length + dropped.length = taken found

/-- One closing drops what stood above the closed entry. -/
theorem Closing.balanced {s after : OpenTags} {tag : Text} {outcome : Outcome}
    (h : Closing s tag outcome after) : Balanced s.entries after.entries [(tag, outcome)] := by
  cases h with
  | unmatched absent => exact ⟨[], by simp [closedNames], rfl⟩
  | closed above below split innermost =>
    refine ⟨above, ?_, ?_⟩
    · rw [split]
      exact List.perm_append_comm
    · simp [closedNames, taken, Outcome.taken, Nat.add_comm]

/-- A run continues what its first closing left. -/
theorem Balanced.cons {entries opened after left : List Text} {tag : Text} {outcome : Outcome}
    {rest : List (Text × Outcome)} (first : Balanced entries after [(tag, outcome)])
    (later : Balanced (opened ++ after) left rest) :
    Balanced (opened ++ entries) left ((tag, outcome) :: rest) := by
  obtain ⟨dropped, hperm, hlength⟩ := first
  obtain ⟨dropped', hperm', hlength'⟩ := later
  refine ⟨dropped ++ dropped', ?_, ?_⟩
  · refine List.perm_iff_count.mpr fun name => ?_
    have hfirst := hperm.count_eq name
    have hlater := hperm'.count_eq name
    rw [closedNames_cons]
    simp only [List.count_append] at hfirst hlater ⊢
    omega
  · rw [closedNames_cons]
    simp only [taken, List.length_append] at hlength hlength' ⊢
    omega

theorem balanced_run (s : OpenTags) (actions : List Action) :
    Balanced (pushed actions ++ s.entries) (s.run actions).entries (s.answers actions) := by
  induction actions generalizing s with
  | nil => exact ⟨[], by simp [pushed, answers, run, closedNames], rfl⟩
  | cons action actions ih =>
    cases action with
    | push tag =>
      obtain ⟨dropped, hperm, hlength⟩ := ih (s.push tag)
      exact ⟨dropped, List.perm_middle.symm.trans hperm, hlength⟩
    | close tag => exact (closing_close s tag).balanced.cons (ih (s.close tag).2)

/-! ### The accounts of a run -/

theorem Balanced.length_eq {opened left : List Text} {found : List (Text × Outcome)}
    (h : Balanced opened left found) : opened.length = left.length + taken found := by
  obtain ⟨dropped, hperm, hlength⟩ := h
  have := hperm.length_eq
  simp only [List.length_append] at this
  omega

theorem Balanced.count_le {opened left : List Text} {found : List (Text × Outcome)}
    (h : Balanced opened left found) (name : Text) :
    (closedNames found).count name + left.count name ≤ opened.count name := by
  obtain ⟨dropped, hperm, -⟩ := h
  have := hperm.count_eq name
  simp only [List.count_append] at this
  omega

/-- After any run from the empty stack, the entries that were pushed are those still open and
those that the closings took, and no name was closed more often than it was pushed.  A closing is
refused exactly where the name is not open, and then changes nothing; otherwise it closes the
innermost entry of the name, so that one entry less has it, and what stands below stays. -/
theorem run_accounted (actions : List Action) :
    (pushed actions).length = (empty.run actions).size + taken (empty.answers actions) ∧
      (∀ tag, (closedNames (empty.answers actions)).count tag +
        (empty.run actions).entries.count tag ≤ (pushed actions).count tag) ∧
      ∀ (s : OpenTags) (tag : Text),
        ((s.close tag).1 = .unmatched ↔ tag ∉ s.entries) ∧
        ((s.close tag).1 = .unmatched → (s.close tag).2 = s) ∧
        ∀ orphans, (s.close tag).1 = .closed orphans →
          (s.close tag).2.entries.count tag + 1 = s.entries.count tag ∧
          ∃ above, s.entries = above ++ tag :: (s.close tag).2.entries ∧
            above.length = orphans ∧ tag ∉ above := by
  have balanced :
      Balanced (pushed actions) (empty.run actions).entries (empty.answers actions) := by
    simpa [empty] using balanced_run empty actions
  refine ⟨balanced.length_eq, balanced.count_le, fun s tag => ?_⟩
  have closing := closing_close s tag
  refine ⟨closing.unmatched_iff, closing.eq_of_unmatched, fun orphans found => ?_⟩
  rw [found] at closing
  exact ⟨closing.count_after, closing.exists_above⟩

/-- The first closing takes the later of two entries, the second drops the earlier one, and the
third finds none. -/
def actionsSample : List Action :=
  [.push ['a'], .push ['b'], .push ['b'], .push ['c'], .close ['b'], .push ['b'], .close ['a'],
    .close ['b'], .push ['d'], .push ['e']]

/-- Seven entries were pushed, five were taken, and `d` can be closed from under `e`. -/
theorem run_accounted_sample :
    empty.answers actionsSample = [(['b'], .closed 1), (['a'], .closed 2), (['b'], .unmatched)] ∧
      7 = (empty.run actionsSample).size + 5 ∧
      1 + (empty.run actionsSample).entries.count ['b'] ≤ 3 ∧
      ((empty.run actionsSample).close ['b']).1 = .unmatched ∧
      ((empty.run actionsSample).close ['b']).2 = empty.run actionsSample ∧
      ((empty.run actionsSample).close ['d']).1 = .closed 1 ∧
      ((empty.run actionsSample).close ['d']).2.entries.count ['d'] + 1 =
        (empty.run actionsSample).entries.count ['d'] := by
  obtain ⟨pushes, counts, closings⟩ := run_accounted actionsSample
  refine ⟨by decide, pushes, counts ['b'], by decide, ?_, by decide, ?_⟩
  · exact (closings _ ['b']).2.1 (by decide)
  · exact ((closings _ ['d']).2.2 1 (by decide)).1

end Wxml.OpenTags
