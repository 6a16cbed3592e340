import Mathlib.Data.List.TakeWhile
import Wxml.Expression

/-!
# Matching without going back

A pattern is matched with going back: a repetition gives up characters until what follows it
matches.  Often nothing has to be tried twice.  `Pattern.into` follows a pattern with what comes
after it, and what comes after a repetition may refuse every character that the repetition could
have taken (`Pattern.Refuses`).  Then the repetition takes all it can (`Pattern.into_many`), and
reading goes from left to right.

The groups of a match are made of characters of the text (`Pattern.groups_subset_of_find?`), and the
two simple patterns of expressions are what they look like (`Expression.hasFilter_cons`,
`Expression.isIdentifier_cons`).
-/

namespace Wxml

namespace Pattern

variable {p q : Char → Bool} {k : State → List State} {s : State}

/-! ### The ways of each pattern -/

@[simp] theorem ways_empty (s : State) : empty.ways s = [s] := rfl

@[simp] theorem ways_start (s : State) : start.ways s = if s.index = 0 then [s] else [] := rfl

@[simp] theorem ways_stop (s : State) : stop.ways s = if s.rest = [] then [s] else [] := rfl

@[simp] theorem ways_char (p : Char → Bool) (s : State) :
    (char p).ways s = if s.rest.head?.any p then [s.advance 1] else [] := rfl

theorem ways_many (p : Char → Bool) (s : State) :
    (many p).ways s = (List.range ((s.rest.takeWhile p).length + 1)).reverse.map s.advance := rfl

theorem ways_few (p : Char → Bool) (s : State) :
    (few p).ways s = (List.range ((s.rest.takeWhile p).length + 1)).map s.advance := rfl

@[simp] theorem ways_seq (a b : Pattern) (s : State) :
    (seq a b).ways s = (a.ways s).flatMap b.ways := rfl

@[simp] theorem ways_choice (a b : Pattern) (s : State) :
    (choice a b).ways s = a.ways s ++ b.ways s := rfl

@[simp] theorem ways_group (n : Nat) (a : Pattern) (s : State) :
    (group n a).ways s = (a.ways s).map fun after => after.keep n s := rfl

theorem findFrom?_nil (r : Pattern) (index : Nat) :
    r.findFrom? index [] = (r.ways ⟨index, [], []⟩).head? := rfl

theorem findFrom?_cons (r : Pattern) (index : Nat) (c : Char) (t : Text) :
    r.findFrom? index (c :: t) =
      ((r.ways ⟨index, c :: t, []⟩).head?).or (r.findFrom? (index + 1) t) := rfl

theorem find?_eq (r : Pattern) (t : Text) : r.find? t = r.findFrom? 0 t := rfl

/-! ### A pattern and what follows it -/

/-- The ways of a pattern, each with what follows it. -/
def into (r : Pattern) (k : State → List State) (s : State) : List State := (r.ways s).flatMap k

theorem ways_eq_into (r : Pattern) (s : State) : r.ways s = r.into (fun t => [t]) s :=
  (List.flatMap_singleton' _).symm

@[simp] theorem into_empty (k : State → List State) : empty.into k = k := by
  funext s
  simp [into]

@[simp] theorem into_seq (a b : Pattern) (k : State → List State) :
    (seq a b).into k = a.into (b.into k) := by
  funext s
  simp only [into, ways_seq, List.flatMap_assoc]
  rfl

@[simp] theorem into_choice (a b : Pattern) (k : State → List State) (s : State) :
    (choice a b).into k s = a.into k s ++ b.into k s := by
  simp [into]

@[simp] theorem into_group (n : Nat) (a : Pattern) (k : State → List State) (s : State) :
    (group n a).into k s = a.into (fun t => k (t.keep n s)) s := by
  simp [into, List.flatMap_map]

@[simp] theorem into_all_nil (k : State → List State) : (all []).into k = k := into_empty k

@[simp] theorem into_all_cons (r : Pattern) (rs : List Pattern) (k : State → List State) :
    (all (r :: rs)).into k = r.into ((all rs).into k) :=
  into_seq r (all rs) k

theorem into_char_of_head? {c : Char} (k : State → List State) (hhead : s.rest.head? = some c)
    (hc : p c = true) : (char p).into k s = k (s.advance 1) := by
  simp [into, hhead, hc]

theorem into_char_of_not {c : Char} (k : State → List State) (hhead : s.rest.head? = some c)
    (hc : p c = false) : (char p).into k s = [] := by
  simp [into, hhead, hc]

theorem into_char_nil (p : Char → Bool) (k : State → List State) (h : s.rest = []) :
    (char p).into k s = [] := by
  simp [into, h]

theorem into_stop_nil (k : State → List State) (h : s.rest = []) : stop.into k s = k s := by
  simp [into, h]

/-! ### Refusing characters -/

/-- What follows does not match where a character of a class is ahead. -/
def Refuses (p : Char → Bool) (k : State → List State) : Prop :=
  ∀ s c, s.rest.head? = some c → p c = true → k s = []

theorem refuses_stop (p : Char → Bool) (k : State → List State) : Refuses p (stop.into k) := by
  intro s c hhead _
  have hne : s.rest ≠ [] := by
    rintro hnil
    simp [hnil] at hhead
  simp [into, hne]

theorem refuses_char (h : ∀ c, p c = true → q c = false) (k : State → List State) :
    Refuses p ((char q).into k) :=
  fun _ c hhead hc => into_char_of_not k hhead (h c hc)

/-- A repetition of other characters takes none, so that it refuses what is refused after it. -/
theorem refuses_many (h : ∀ c, p c = true → q c = false) (hk : Refuses p k) :
    Refuses p ((many q).into k) := by
  intro s c hhead hc
  obtain ⟨rest, hrest⟩ := List.head?_eq_some_iff.1 hhead
  have hnone : s.rest.takeWhile q = [] := by
    rw [hrest, List.takeWhile_cons_of_neg (by simp [h c hc])]
  have hway : (many q).ways s = [s] := by
    rw [ways_many, hnone]
    rfl
  rw [into, hway, List.flatMap_singleton]
  exact hk s c hhead hc

theorem refuses_choice {a b : Pattern} (ha : Refuses p (a.into k)) (hb : Refuses p (b.into k)) :
    Refuses p ((choice a b).into k) := by
  intro s c hhead hc
  rw [into_choice, ha s c hhead hc, hb s c hhead hc]
  rfl

theorem head?_drop_of_lt {t : Text} {n : Nat} (h : n < (t.takeWhile p).length) :
    ∃ c, (t.drop n).head? = some c ∧ p c = true := by
  induction t generalizing n with
  | nil => simp at h
  | cons c t ih =>
    by_cases hc : p c = true
    · cases n with
      | zero => exact ⟨c, rfl, hc⟩
      | succ n =>
        rw [List.takeWhile_cons_of_pos hc, List.length_cons] at h
        exact ih (Nat.lt_of_succ_lt_succ h)
    · simp [List.takeWhile_cons_of_neg hc] at h

/-- A repetition takes all it can if what follows it refuses its characters. -/
theorem into_many (hk : Refuses p k) (s : State) :
    (many p).into k s = k (s.advance (s.rest.takeWhile p).length) := by
  have hfewer : ∀ n ∈ (List.range (s.rest.takeWhile p).length).reverse, k (s.advance n) = [] := by
    intro n hn
    obtain ⟨c, hhead, hc⟩ := head?_drop_of_lt (List.mem_range.1 (List.mem_reverse.1 hn))
    exact hk _ c hhead hc
  have hrest : (List.range (s.rest.takeWhile p).length).reverse.flatMap
      (fun n => k (s.advance n)) = [] := List.flatMap_eq_nil_iff.2 hfewer
  rw [into, ways_many, List.flatMap_map, List.range_succ, List.reverse_append, List.flatMap_append,
    hrest, List.append_nil]
  exact List.flatMap_singleton _ _

/-! ### Patterns at the start of a text -/

theorem findFrom?_start (rs : List Pattern) (index : Nat) (t : Text) :
    (all (start :: rs)).findFrom? (index + 1) t = none := by
  have hnone (u : Text) : (all (start :: rs)).ways ⟨index + 1, u, []⟩ = [] := by
    simp [all]
  induction t generalizing index with
  | nil => simp [findFrom?_nil, hnone]
  | cons c t ih =>
    have hnext := ih (index + 1) (fun u => by simp [all])
    simp [findFrom?_cons, hnone, hnext]

/-- A pattern for the start of a text matches there or nowhere. -/
theorem find?_start (rs : List Pattern) (t : Text) :
    (all (start :: rs)).find? t = ((all rs).ways ⟨0, t, []⟩).head? := by
  have hways : (all (start :: rs)).ways ⟨0, t, []⟩ = (all rs).ways ⟨0, t, []⟩ := by
    simp [all]
  cases t with
  | nil => rw [find?_eq, findFrom?_nil, hways]
  | cons c t => rw [find?_eq, findFrom?_cons, hways, findFrom?_start, Option.or_none]

/-! ### Groups -/

theorem ways_subset {r : Pattern} {s t : State} (h : t ∈ r.ways s) :
    t.rest ⊆ s.rest ∧ ∀ g ∈ t.groups, g ∈ s.groups ∨ g.2 ⊆ s.rest := by
  have hadvance (n : Nat) : (s.advance n).rest ⊆ s.rest ∧
      ∀ g ∈ (s.advance n).groups, g ∈ s.groups ∨ g.2 ⊆ s.rest :=
    ⟨(List.drop_sublist n s.rest).subset, fun _ hg => .inl hg⟩
  induction r generalizing s t with
  | empty =>
    rw [List.mem_singleton.1 h]
    exact hadvance 0
  | start =>
    rw [ways_start] at h
    split at h
    · rw [List.mem_singleton.1 h]
      exact hadvance 0
    · cases h
  | stop =>
    rw [ways_stop] at h
    split at h
    · rw [List.mem_singleton.1 h]
      exact hadvance 0
    · cases h
  | char p =>
    rw [ways_char] at h
    split at h
    · rw [List.mem_singleton.1 h]
      exact hadvance 1
    · cases h
  | many p =>
    obtain ⟨n, -, rfl⟩ := List.mem_map.1 h
    exact hadvance n
  | few p =>
    obtain ⟨n, -, rfl⟩ := List.mem_map.1 h
    exact hadvance n
  | seq a b iha ihb =>
    obtain ⟨middle, hmiddle, hlast⟩ := List.mem_flatMap.1 h
    obtain ⟨hrest, hgroups⟩ := iha hmiddle hadvance
    obtain ⟨hrest', hgroups'⟩ := ihb hlast
      fun n => ⟨(List.drop_sublist n middle.rest).subset, fun _ hg => .inl hg⟩
    refine ⟨List.Subset.trans hrest' hrest, fun g hg => ?_⟩
    rcases hgroups' g hg with hbefore | hpart
    · exact hgroups g hbefore
    · exact .inr (List.Subset.trans hpart hrest)
  | choice a b iha ihb =>
    rcases List.mem_append.1 h with ha | hb
    · exact iha ha hadvance
    · exact ihb hb hadvance
  | group n a ih =>
    obtain ⟨after, hafter, rfl⟩ := List.mem_map.1 h
    obtain ⟨hrest, hgroups⟩ := ih hafter hadvance
    refine ⟨hrest, fun g hg => ?_⟩
    rcases List.mem_cons.1 hg with rfl | hbefore
    · exact .inr (List.take_sublist _ _).subset
    · exact hgroups g hbefore

/-- The groups of a match are made of characters of the text. -/
theorem groups_subset_of_find? {r : Pattern} {t : Text} {m : State} (h : r.find? t = some m) :
    ∀ g ∈ m.groups, g.2 ⊆ t := by
  have hfrom : ∀ (index : Nat) (u : Text), r.findFrom? index u = some m →
      ∀ g ∈ m.groups, g.2 ⊆ u := by
    intro index u hfind g hg
    induction u generalizing index with
    | nil =>
      obtain ⟨-, hgroups⟩ := ways_subset (List.mem_of_mem_head? hfind)
      exact (hgroups g hg).resolve_left List.not_mem_nil
    | cons c u ih =>
      rcases Option.or_eq_some_iff.1 hfind with hhere | ⟨-, hlater⟩
      · obtain ⟨-, hgroups⟩ := ways_subset (List.mem_of_mem_head? hhere)
        exact (hgroups g hg).resolve_left List.not_mem_nil
      · exact List.subset_cons_of_subset _ (ih _ hlater)
  exact hfrom 0 t h

end Pattern

namespace Expression

open Pattern

/-! ### Filters and identifiers -/

/-- Whether a text starts with a bar between two blanks. -/
def startsFilter : Text → Bool
  | a :: b :: c :: _ => isBlank a && b == '|' && isBlank c
  | _ => false

theorem isSome_ways_filter (index : Nat) (t : Text) :
    (filter.ways ⟨index, t, []⟩).head?.isSome = startsFilter t := by
  rcases t with _ | ⟨a, _ | ⟨b, _ | ⟨c, t⟩⟩⟩
  · simp [filter, all, startsFilter]
  · by_cases ha : isBlank a = true <;> simp [filter, all, startsFilter, State.advance, ha]
  · by_cases ha : isBlank a = true <;> by_cases hb : b = '|' <;>
      simp [filter, all, startsFilter, State.advance, ha, hb]
  · by_cases ha : isBlank a = true <;> by_cases hb : b = '|' <;> by_cases hc : isBlank c = true <;>
      simp [filter, all, startsFilter, State.advance, ha, hb, hc]

theorem hasFilter_nil : hasFilter [] = false := by
  rw [hasFilter, occursIn, find?_eq, findFrom?_nil, isSome_ways_filter]
  rfl

theorem hasFilter_cons (c : Char) (t : Text) :
    hasFilter (c :: t) = (startsFilter (c :: t) || hasFilter t) := by
  have hindex : ∀ (t : Text) (index : Nat),
      (filter.findFrom? (index + 1) t).isSome = (filter.findFrom? index t).isSome := by
    intro t
    induction t with
    | nil =>
      intro index
      simp only [findFrom?_nil, isSome_ways_filter]
    | cons c t ih =>
      intro index
      simp only [findFrom?_cons, Option.isSome_or, isSome_ways_filter, ih]
  rw [hasFilter, occursIn, find?_eq, findFrom?_cons, Option.isSome_or, isSome_ways_filter, hindex]
  rfl

/-- An identifier is a character that one may start with, and then characters that one goes on
with. -/
theorem isIdentifier_cons (c : Char) (t : Text) :
    isIdentifier (c :: t) = (isIdentifierHead c && t.all isIdentifierChar) := by
  rw [isIdentifier, occursIn, find?_start, ways_eq_into, into_all_cons, into_all_cons, into_all_nil,
    identifier, into_seq]
  by_cases hhead : isIdentifierHead c = true
  · rw [into_char_of_head? _ rfl hhead, into_many (refuses_stop _ _), hhead, Bool.true_and]
    by_cases hall : t.all isIdentifierChar = true
    · have htaken : t.takeWhile isIdentifierChar = t :=
        List.takeWhile_eq_self_iff.2 (List.all_eq_true.1 hall)
      rw [into_stop_nil _ (by simp [State.advance, htaken]), hall]
      rfl
    · have hrest : t.drop (t.takeWhile isIdentifierChar).length ≠ [] := by
        intro hnil
        have hle := List.drop_eq_nil_iff.1 hnil
        have hsame := (List.takeWhile_prefix isIdentifierChar (l := t)).eq_of_length_le hle
        exact hall (List.all_eq_true.2 (List.takeWhile_eq_self_iff.1 hsame))
      rw [Bool.not_eq_true] at hall
      simp only [into, ways_stop, State.advance, List.drop_succ_cons, List.drop_zero, hrest, hall,
        if_false, List.flatMap_nil, List.head?_nil, Option.isSome_none]
  · rw [into_char_of_not _ rfl (by simpa using hhead)]
    simp [hhead]

theorem isIdentifier_nil : isIdentifier [] = false := by
  rw [isIdentifier, occursIn, find?_start, ways_eq_into, into_all_cons, identifier, into_seq,
    into_char_nil _ _ rfl]
  rfl

end Expression

end Wxml
