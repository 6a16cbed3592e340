import Wxml.Proofs.Patterns
import Wxml.Proofs.TextLines

/-!
# The pattern of loop heads

The pattern `Loop.headPattern` has choices and repetitions, but blanks, identifiers and the marks of
a head are made of different characters.  So a head can be read from left to right without going
back (`Loop.scan?`), and `Loop.parse?_eq_scan?` says that this gives the groups of the match.  Only
where the list ends is something to be found: it is as short as can be, so it is the line up to the
last character that is not blank (`Loop.head?_ways_source`).
-/

namespace Wxml

/-! ### Blanks -/

/-- The code points of blanks. -/
def blankCodes : List Nat :=
  List.range' 0x09 5 ++ List.range' 0x2000 11 ++
    [0x20, 0x85, 0xa0, 0x1680, 0x2028, 0x2029, 0x202f, 0x205f, 0x3000]

/-- No blank is a word character. -/
theorem isWordChar_of_isBlank {c : Char} (h : isBlank c = true) : isWordChar c = false := by
  have hall : ∀ n ∈ blankCodes, isWordChar (Char.ofNat n) = false := by decide +kernel
  have hmem : c.toNat ∈ blankCodes := by
    simp only [isBlank, Bool.or_eq_true, Bool.and_eq_true, decide_eq_true_eq, beq_iff_eq] at h
    simp only [blankCodes, List.mem_append, List.mem_range'_1, List.mem_cons, List.not_mem_nil,
      or_false]
    omega
  have hword := hall c.toNat hmem
  rwa [Char.ofNat_toNat] at hword

namespace Expression

theorem isIdentifierChar_of_isBlank {c : Char} (h : isBlank c = true) :
    isIdentifierChar c = false := by
  have hdollar : c ≠ '$' := ne_of_isBlank h (by decide)
  simp [isIdentifierChar, isWordChar_of_isBlank h, hdollar]

/-- An identifier starts with neither a blank nor a parenthesis. -/
theorem isIdentifierHead_not {c : Char} (h : isIdentifierHead c = true) :
    isBlank c = false ∧ c ≠ '(' := by
  simp only [isIdentifierHead, Bool.or_eq_true, beq_iff_eq] at h
  rcases h with (hletter | rfl) | rfl
  · refine ⟨isBlank_of_isAlpha hletter, ?_⟩
    rintro rfl
    exact absurd hletter (by decide)
  · decide
  · decide

theorem isBlank_of_isIdentifierChar {c : Char} (h : isIdentifierChar c = true) :
    isBlank c = false := by
  by_contra hblank
  rw [isIdentifierChar_of_isBlank (by simpa using hblank)] at h
  cases h

theorem isIdentifierHead_of_isBlank {c : Char} (h : isBlank c = true) :
    isIdentifierHead c = false := by
  by_contra hhead
  rw [(isIdentifierHead_not (by simpa using hhead)).1] at h
  cases h

/-- The longest identifier a text starts with, and the text after it. -/
def identifier? : Text → Option (Text × Text)
  | [] => none
  | c :: t =>
    if isIdentifierHead c then
      some (c :: t.takeWhile isIdentifierChar, t.dropWhile isIdentifierChar)
    else none

end Expression

namespace Loop

open Pattern Expression

/-! ### Reading a head -/

/-- The text after one or more blanks. -/
def blanks? : Text → Option Text
  | [] => none
  | c :: t => if isBlank c then some (Text.trimStart t) else none

/-- The rest of a name list after its comma: the index, and what follows the closing parenthesis. -/
def index? (t : Text) : Option (Text × Text) :=
  match identifier? (Text.trimStart t) with
  | none => none
  | some (index, t) =>
    match Text.trimStart t with
    | ')' :: t => some (index, t)
    | _ => none

/-- The rest of a name list after its opening parenthesis: the item, the index, and what follows the
closing parenthesis. -/
def parenthesised? (t : Text) : Option (Text × Option Text × Text) :=
  match identifier? (Text.trimStart t) with
  | none => none
  | some (item, t) =>
    match Text.trimStart t with
    | ')' :: t => some (item, none, t)
    | ',' :: t => (index? t).map fun (index, t) => (item, some index, t)
    | _ => none

/-- The names a loop head starts with, and what follows them. -/
def names? : Text → Option (Text × Option Text × Text)
  | '(' :: t => parenthesised? t
  | t => (identifier? t).map fun (item, t) => (item, none, t)

/-- The text after `in` or `of`. -/
def keyword? : Text → Option Text
  | 'i' :: 'n' :: t => some t
  | 'o' :: 'f' :: t => some t
  | _ => none

/-- The loop a text is the head of, blanks at its ends aside.  The list is one line. -/
def scan? (t : Text) : Option Loop :=
  match names? (Text.trimStart t) with
  | none => none
  | some (item, index, t) =>
    match (blanks? t).bind keyword? |>.bind blanks? with
    | none => none
    | some t =>
      let source := Text.trimEnd t
      if source.isEmpty || source.contains '\n' then none else some ⟨item, index, source⟩

/-! ### The parts of the pattern -/

variable {k : State → List State} {s : State} {rest : Text}

/-- The state after the blanks ahead. -/
def skipBlanks (s : State) : State := s.advance (s.rest.takeWhile isBlank).length

theorem drop_length_takeWhile (p : Char → Bool) (t : Text) :
    t.drop (t.takeWhile p).length = t.dropWhile p := by
  have hdrop : (t.takeWhile p ++ t.dropWhile p).drop (t.takeWhile p).length = t.dropWhile p :=
    List.drop_left
  rwa [List.takeWhile_append_dropWhile] at hdrop

theorem rest_skipBlanks (s : State) : (skipBlanks s).rest = Text.trimStart s.rest :=
  drop_length_takeWhile isBlank s.rest

theorem into_oneOrMore_none (h : blanks? s.rest = none) : (oneOrMore isBlank).into k s = [] := by
  rw [oneOrMore, into_seq]
  cases hrest : s.rest with
  | nil => exact into_char_nil _ _ hrest
  | cons c t =>
    rw [hrest, blanks?] at h
    split at h
    · cases h
    · rename_i hc
      exact into_char_of_not _ (by rw [hrest]; rfl) (by simpa using hc)

theorem into_oneOrMore_some (hk : Refuses isBlank k) (h : blanks? s.rest = some rest) :
    ∃ i, (oneOrMore isBlank).into k s = k ⟨i, rest, s.groups⟩ := by
  rw [oneOrMore, into_seq]
  cases hrest : s.rest with
  | nil =>
    rw [hrest] at h
    cases h
  | cons c t =>
    rw [hrest, blanks?] at h
    split at h
    · rename_i hc
      cases h
      have hsecond : (s.advance 1).rest = t := by rw [State.advance, hrest]; rfl
      refine ⟨(skipBlanks (s.advance 1)).index, ?_⟩
      rw [into_char_of_head? _ (by rw [hrest]; rfl) hc, into_many hk]
      show k (skipBlanks (s.advance 1)) = _
      rw [← hsecond, ← rest_skipBlanks]
      rfl
    · cases h

theorem into_blanks (hk : Refuses isBlank k) (s : State) :
    (many isBlank).into k s = k (skipBlanks s) := into_many hk s

theorem refuses_keep {p : Char → Bool} (hk : Refuses p k) (n : Nat) (since : State) :
    Refuses p fun t => k (t.keep n since) :=
  fun t c hhead hc => hk (t.keep n since) c hhead hc

theorem into_identifier_none (n : Nat) (h : identifier? s.rest = none) :
    (group n identifier).into k s = [] := by
  rw [into_group, identifier, into_seq]
  cases hrest : s.rest with
  | nil => exact into_char_nil _ _ hrest
  | cons c t =>
    rw [hrest, identifier?] at h
    split at h
    · cases h
    · rename_i hc
      exact into_char_of_not _ (by rw [hrest]; rfl) (by simpa using hc)

theorem into_identifier_some (n : Nat) {name : Text} (hk : Refuses isIdentifierChar k)
    (h : identifier? s.rest = some (name, rest)) :
    ∃ i, (group n identifier).into k s = k ⟨i, rest, (n, name) :: s.groups⟩ := by
  rw [into_group, identifier, into_seq]
  cases hrest : s.rest with
  | nil =>
    rw [hrest] at h
    cases h
  | cons c t =>
    rw [hrest, identifier?] at h
    split at h
    · rename_i hc
      cases h
      refine ⟨s.index + 1 + (t.takeWhile isIdentifierChar).length, ?_⟩
      rw [into_char_of_head? _ (by rw [hrest]; rfl) hc, into_many (refuses_keep hk n s)]
      have htake : t.take (t.takeWhile isIdentifierChar).length = t.takeWhile isIdentifierChar :=
        (List.prefix_iff_eq_take.1 (List.takeWhile_prefix _)).symm
      have hlength : s.index + 1 + (t.takeWhile isIdentifierChar).length - s.index =
          (t.takeWhile isIdentifierChar).length + 1 := by omega
      simp only [State.keep, State.advance, hrest, List.drop_succ_cons, List.drop_zero, hlength,
        drop_length_takeWhile, List.take_succ_cons, htake]
    · cases h

/-! ### Names -/

theorem refuses_identifier (n : Nat) (k : State → List State) :
    Refuses isBlank ((group n identifier).into k) := by
  intro s c hhead hc
  rw [into_group, identifier, into_seq]
  exact refuses_char (fun _ => isIdentifierHead_of_isBlank) _ s c hhead hc

theorem refuses_mark {p : Char → Bool} {mark : Char} (h : p mark = false)
    (k : State → List State) : Refuses p ((char (· == mark)).into k) := by
  refine refuses_char (fun c hc => ?_) k
  rw [beq_eq_false_iff_ne]
  rintro rfl
  rw [hc] at h
  cases h

theorem into_mark {mark : Char} {t : Text} (h : s.rest = mark :: t) :
    (char (· == mark)).into k s = k (s.advance 1) :=
  into_char_of_head? k (by rw [h]; rfl) (beq_self_eq_true mark)

theorem into_other {mark : Char} (h : ∀ t, s.rest ≠ mark :: t) :
    (char (· == mark)).into k s = [] := by
  cases hrest : s.rest with
  | nil => exact into_char_nil _ _ hrest
  | cons c t =>
    refine into_char_of_not k (by rw [hrest]; rfl) (beq_eq_false_iff_ne.2 ?_)
    rintro rfl
    exact h t hrest

/-- A name, the blanks around it, and something that is neither blank nor part of a name. -/
theorem into_name_none (n : Nat) (h : identifier? (Text.trimStart s.rest) = none) :
    (many isBlank).into ((group n identifier).into k) s = [] := by
  rw [into_blanks (refuses_identifier n k)]
  exact into_identifier_none n (by rw [rest_skipBlanks, h])

theorem into_name_some (n : Nat) {name : Text} (hblank : Refuses isBlank k)
    (hchar : Refuses isIdentifierChar k)
    (h : identifier? (Text.trimStart s.rest) = some (name, rest)) :
    ∃ i, (many isBlank).into ((group n identifier).into ((many isBlank).into k)) s =
      k ⟨i, Text.trimStart rest, (n, name) :: s.groups⟩ := by
  have hafter : Refuses isIdentifierChar ((many isBlank).into k) :=
    refuses_many (fun _ => isBlank_of_isIdentifierChar) hchar
  rw [← rest_skipBlanks] at h
  obtain ⟨i, hi⟩ := into_identifier_some n hafter h
  refine ⟨(skipBlanks ⟨i, rest, (n, name) :: s.groups⟩).index, ?_⟩
  rw [into_blanks (refuses_identifier n _), hi, into_blanks hblank]
  exact congrArg k (congrArg (State.mk _ · _) (rest_skipBlanks _))

/-- The index and the end of a list of names. -/
def indexEnd (k : State → List State) : State → List State :=
  (many isBlank).into ((group 2 identifier).into ((many isBlank).into ((char (· == ')')).into k)))

theorem indexEnd_of_identifier? {index : Text}
    (h : identifier? (Text.trimStart s.rest) = some (index, rest)) :
    ∃ i, indexEnd k s =
      (char (· == ')')).into k ⟨i, Text.trimStart rest, (2, index) :: s.groups⟩ :=
  into_name_some 2 (refuses_mark (by decide) k) (refuses_mark (by decide) k) h

theorem indexEnd_of_none (h : index? s.rest = none) : indexEnd k s = [] := by
  rw [index?] at h
  cases hindex : identifier? (Text.trimStart s.rest) with
  | none => exact into_name_none 2 hindex
  | some found =>
    obtain ⟨index, t⟩ := found
    obtain ⟨i, hi⟩ := indexEnd_of_identifier? (k := k) hindex
    rw [hi]
    refine into_other fun u hu => ?_
    simp only [hindex] at h hu
    rw [hu] at h
    cases h

theorem indexEnd_of_some {index : Text} (h : index? s.rest = some (index, rest)) :
    ∃ i, indexEnd k s = k ⟨i, rest, (2, index) :: s.groups⟩ := by
  rw [index?] at h
  cases hindex : identifier? (Text.trimStart s.rest) with
  | none =>
    rw [hindex] at h
    cases h
  | some found =>
    obtain ⟨name, t⟩ := found
    obtain ⟨i, hi⟩ := indexEnd_of_identifier? (k := k) hindex
    simp only [hindex] at h
    split at h
    · rename_i u hu
      cases h
      refine ⟨i + 1, ?_⟩
      rw [hi, hu, into_mark rfl]
      rfl
    · cases h

/-- The end of a list of names, after the item. -/
def listEnd (k : State → List State) : State → List State :=
  (Pattern.optional indexPattern).into ((char (· == ')')).into k)

theorem listEnd_eq (k : State → List State) (s : State) :
    listEnd k s = (char (· == ',')).into (indexEnd k) s ++ (char (· == ')')).into k s := by
  simp only [listEnd, indexEnd, Pattern.optional, indexPattern, into_choice, into_empty,
    into_all_cons, into_all_nil]

theorem refuses_listEnd {p : Char → Bool} (hcomma : p ',' = false) (hclose : p ')' = false)
    (k : State → List State) : Refuses p (listEnd k) := by
  intro s c hhead hc
  rw [listEnd_eq, refuses_mark hcomma _ s c hhead hc, refuses_mark hclose _ s c hhead hc]
  rfl

/-- The groups that the names of a loop are kept in. -/
inductive NameGroups : Text → Option Text → List (Nat × Text) → Prop
  | bare (item : Text) : NameGroups item none [(3, item)]
  | enclosed (item : Text) : NameGroups item none [(1, item)]
  | indexed (item index : Text) : NameGroups item (some index) [(2, index), (1, item)]

theorem NameGroups.ofGroups {item : Text} {index : Option Text} {groups : List (Nat × Text)}
    (h : NameGroups item index groups) (source : Text) :
    ofGroups ((4, source) :: groups) = ⟨item, index, source⟩ := by
  cases h <;> rfl

theorem into_names_eq (k : State → List State) (s : State) :
    namesPattern.into k s =
      (char (· == '(')).into ((many isBlank).into ((group 1 identifier).into
        ((many isBlank).into (listEnd k)))) s ++ (group 3 identifier).into k s := by
  simp only [namesPattern, into_choice, into_all_cons, into_all_nil, listEnd]

/-- What follows the names matches after all of them, or there are none. -/
def AfterNames (found : Option (Text × Option Text × Text)) (k : State → List State)
    (groups : List (Nat × Text)) (ways : List State) : Prop :=
  found = none ∧ ways = [] ∨
    ∃ item index rest i names, found = some (item, index, rest) ∧ NameGroups item index names ∧
      ways = k ⟨i, rest, names ++ groups⟩

theorem afterNames_parenthesised {t : Text} (h : s.rest = '(' :: t) (k : State → List State) :
    AfterNames (parenthesised? t) k s.groups
      ((char (· == '(')).into ((many isBlank).into ((group 1 identifier).into
        ((many isBlank).into (listEnd k)))) s) := by
  have hrest : (s.advance 1).rest = t := by
    rw [State.advance, h]
    rfl
  rw [into_mark h, parenthesised?]
  cases hitem : identifier? (Text.trimStart t) with
  | none => exact .inl ⟨rfl, into_name_none 1 (by rw [hrest, hitem])⟩
  | some found =>
    obtain ⟨item, u⟩ := found
    obtain ⟨i, hi⟩ := into_name_some 1 (refuses_listEnd (by decide) (by decide) k)
      (refuses_listEnd (by decide) (by decide) k) (hrest.symm ▸ hitem)
    have hgroups : (s.advance 1).groups = s.groups := rfl
    rw [hi, hgroups, listEnd_eq]
    simp only
    split
    · rename_i v hv
      have hother : ∀ w, Text.trimStart u ≠ ',' :: w := by simp [hv]
      refine .inr ⟨item, none, v, i + 1, [(1, item)], rfl, .enclosed item, ?_⟩
      rw [into_other hother, into_mark hv, State.advance, hv]
      rfl
    · rename_i v hv
      have hother : ∀ w, Text.trimStart u ≠ ')' :: w := by simp [hv]
      rw [into_mark hv, into_other hother, List.append_nil, hv]
      cases hindex : index? v with
      | none => exact .inl ⟨rfl, indexEnd_of_none hindex⟩
      | some found =>
        obtain ⟨index, w⟩ := found
        obtain ⟨j, hj⟩ := indexEnd_of_some (k := k)
          (s := (⟨i, ',' :: v, (1, item) :: s.groups⟩ : State).advance 1) hindex
        exact .inr ⟨item, some index, w, j, [(2, index), (1, item)], rfl, .indexed item index, hj⟩
    · rename_i hclose hcomma
      refine .inl ⟨rfl, ?_⟩
      rw [into_other hcomma, into_other hclose]
      rfl

theorem afterNames_names (hk : Refuses isIdentifierChar k) (s : State) :
    AfterNames (names? s.rest) k s.groups (namesPattern.into k s) := by
  rw [into_names_eq]
  by_cases hparen : ∃ t, s.rest = '(' :: t
  · obtain ⟨t, ht⟩ := hparen
    have hbare : identifier? s.rest = none := by
      rw [ht]
      rfl
    rw [into_identifier_none 3 hbare, List.append_nil, ht]
    exact afterNames_parenthesised ht k
  · rw [into_other (fun t ht => hparen ⟨t, ht⟩), List.nil_append]
    have hnames : names? s.rest = (identifier? s.rest).map fun (item, t) => (item, none, t) := by
      unfold names?
      split
      · rename_i t ht
        exact absurd ⟨t, ht⟩ hparen
      · rfl
    rw [hnames]
    cases hitem : identifier? s.rest with
    | none => exact .inl ⟨rfl, into_identifier_none 3 hitem⟩
    | some found =>
      obtain ⟨item, rest⟩ := found
      obtain ⟨i, hi⟩ := into_identifier_some 3 hk hitem
      exact .inr ⟨item, none, rest, i, [(3, item)], rfl, .bare item, hi⟩

/-! ### The keyword -/

theorem into_word_cons (c : Char) (t : Text) (k : State → List State) :
    (word (c :: t)).into k = (char (· == c)).into ((word t).into k) := into_all_cons _ _ _

theorem into_word (t : Text) (k : State → List State) (s : State) :
    (word t).into k s =
      if t <+: s.rest then k (s.advance t.length) else [] := by
  induction t generalizing s with
  | nil => simp [word, State.advance]
  | cons c t ih =>
    rw [into_word_cons]
    cases hrest : s.rest with
    | nil => simp [into_char_nil _ _ hrest]
    | cons d u =>
      by_cases hd : d = c
      · subst hd
        have hnext : (s.advance 1).rest = u := by
          rw [State.advance, hrest]
          rfl
        have hadvance : (s.advance 1).advance t.length = s.advance (d :: t).length := by
          simp [State.advance, Nat.add_comm, Nat.add_left_comm]
        rw [into_mark hrest, ih, hnext, hadvance]
        simp
      · rw [into_other (by simp [hrest, hd])]
        simp [Ne.symm hd]

theorem into_keyword_none (h : keyword? s.rest = none) :
    (choice (word "in") (word "of")).into k s = [] := by
  have hin : ¬ ("in" : Text) <+: s.rest := by
    rintro ⟨t, ht⟩
    rw [← ht] at h
    cases h
  have hof : ¬ ("of" : Text) <+: s.rest := by
    rintro ⟨t, ht⟩
    rw [← ht] at h
    cases h
  rw [into_choice, into_word, into_word, if_neg hin, if_neg hof]
  rfl

theorem into_keyword_some (h : keyword? s.rest = some rest) :
    ∃ i, (choice (word "in") (word "of")).into k s = k ⟨i, rest, s.groups⟩ := by
  refine ⟨s.index + 2, ?_⟩
  rw [into_choice, into_word, into_word, State.advance, State.advance]
  unfold keyword? at h
  split at h
  · rename_i t ht
    cases h
    rw [ht]
    simp
  · rename_i t ht
    cases h
    rw [ht]
    simp
  · cases h

/-! ### The list -/

theorem trimStart_eq_nil_iff {t : Text} : Text.trimStart t = [] ↔ Text.allBlank t = true := by
  rw [Text.trimStart, List.dropWhile_eq_nil_iff, Text.allBlank, List.all_eq_true]

/-- Blanks up to the end, and where they lead. -/
theorem into_blanks_stop (s : State) :
    (many isBlank).into (stop.into fun t => [t]) s =
      if Text.allBlank s.rest then [⟨s.index + s.rest.length, [], s.groups⟩] else [] := by
  rw [into_blanks (refuses_stop _ _)]
  by_cases hblank : Text.allBlank s.rest = true
  · have hall : s.rest.takeWhile isBlank = s.rest :=
      List.takeWhile_eq_self_iff.2 (List.all_eq_true.1 hblank)
    rw [if_pos hblank, into_stop_nil]
    · simp [skipBlanks, State.advance, hall]
    · rw [rest_skipBlanks, trimStart_eq_nil_iff.2 hblank]
  · have hrest : (skipBlanks s).rest ≠ [] := by
      rw [rest_skipBlanks]
      exact fun hnil => hblank (trimStart_eq_nil_iff.1 hnil)
    rw [if_neg hblank]
    simp [into, hrest]

/-- The ways to take the list of a loop, from the shortest one on. -/
theorem ways_source {c : Char} {t : Text} (h : s.rest = c :: t) (hc : isBlank c = false) :
    sourcePattern.ways s =
      (List.range ((t.takeWhile (· != '\n')).length + 1)).flatMap fun n =>
        if Text.allBlank (t.drop n) then
          [⟨s.index + 1 + n + (t.drop n).length, [], (4, c :: t.take n) :: s.groups⟩]
        else [] := by
  have hsecond : (s.advance 1).rest = t := by
    rw [State.advance, h]
    rfl
  rw [ways_eq_into, sourcePattern, into_all_cons, into_all_cons, into_all_cons, into_all_nil,
    into_group, into_seq, into_char_of_head? _ (by rw [h]; rfl) (by simp [hc]), into, ways_few,
    hsecond, List.flatMap_map]
  refine congrArg (List.flatMap · _) (funext fun n => ?_)
  have htaken : s.index + 1 + n - s.index = n + 1 := by omega
  rw [into_blanks_stop]
  simp only [State.keep, State.advance, h, List.drop_succ_cons, List.drop_zero, htaken,
    List.take_succ_cons]

theorem isBlank_getLast_trimEnd {t : Text} {c : Char} (h : (Text.trimEnd t).getLast? = some c) :
    isBlank c = false := by
  apply Text.isBlank_of_head?_dropWhile (t := t.reverse)
  rwa [Text.trimEnd, Text.dropEndWhile, List.getLast?_reverse] at h

theorem trimEnd_ne_nil {c : Char} (t : Text) (hc : isBlank c = false) :
    Text.trimEnd (c :: t) ≠ [] := by
  intro hnil
  obtain ⟨gap, hgap, hsplit⟩ := Text.exists_eq_trimEnd_append (c :: t)
  rw [hnil, List.nil_append] at hsplit
  rw [← hsplit, Text.allBlank, List.all_cons, hc] at hgap
  cases hgap

section

variable {c : Char} {line gap : Text}
  (hlast : ∀ d, (c :: line).getLast? = some d → isBlank d = false)
include hlast

/-- What is left after a shorter list still has the last character of the line. -/
theorem allBlank_drop_eq_false {n : Nat} (hn : n < line.length) :
    Text.allBlank ((line ++ gap).drop n) = false := by
  have hne : line.drop n ≠ [] := by
    rw [ne_eq, List.drop_eq_nil_iff]
    omega
  have hend : isBlank ((line.drop n).getLast hne) = false := by
    apply hlast
    rw [List.getLast_drop, List.getLast?_cons, List.getLast?_eq_some_getLast
      (List.ne_nil_of_length_pos (by omega)), Option.getD_some]
  rw [List.drop_append_of_le_length hn.le, Text.allBlank_append, Bool.and_eq_false_iff,
    Text.allBlank, List.all_eq_false]
  exact .inl ⟨_, List.getLast_mem hne, hend ▸ Bool.false_ne_true⟩

/-- No list ends before a line break with more after it. -/
theorem head?_ways_source_of_break (h : s.rest = c :: (line ++ gap)) (hc : isBlank c = false)
    (hline : '\n' ∈ line) : (sourcePattern.ways s).head? = none := by
  have hstops : (line.takeWhile (· != '\n')).length < line.length := by
    refine lt_of_le_of_ne (List.takeWhile_prefix _).length_le fun hall => ?_
    have hself := (List.takeWhile_prefix (· != '\n')).eq_of_length hall
    exact absurd (List.takeWhile_eq_self_iff.1 hself _ hline) (by decide)
  rw [ways_source h hc, List.head?_flatMap, List.findSome?_eq_none_iff, List.takeWhile_append,
    if_neg hstops.ne]
  intro n hn
  rw [allBlank_drop_eq_false hlast (by rw [List.mem_range] at hn; omega)]
  rfl

/-- On one line, the first list that only blanks follow is the whole line. -/
theorem head?_ways_source_of_line (h : s.rest = c :: (line ++ gap)) (hc : isBlank c = false)
    (hgap : Text.allBlank gap = true) (hline : '\n' ∉ line) :
    (sourcePattern.ways s).head? =
      some ⟨s.index + 1 + line.length + gap.length, [], (4, c :: line) :: s.groups⟩ := by
  have hself : line.takeWhile (· != '\n') = line := by
    rw [List.takeWhile_eq_self_iff]
    intro d hd
    exact bne_iff_ne.2 fun hnl => hline (hnl ▸ hd)
  rw [ways_source h hc, List.head?_flatMap, List.takeWhile_append, if_pos (by rw [hself]),
    List.length_append, Nat.add_assoc, List.range_add, List.range_succ_eq_map, List.map_cons,
    List.findSome?_append, List.findSome?_eq_none_iff.2, Option.none_or, List.findSome?_cons]
  · simp [hgap]
  · intro n hn
    rw [allBlank_drop_eq_false hlast (List.mem_range.1 hn)]
    rfl

end

/-- The list of a loop ends with the last character that is not blank, if that is on the same
line. -/
theorem head?_ways_source {c : Char} {t : Text} (h : s.rest = c :: t) (hc : isBlank c = false) :
    ∃ i, (sourcePattern.ways s).head? =
      if '\n' ∈ Text.trimEnd (c :: t) then none
      else some ⟨i, [], (4, Text.trimEnd (c :: t)) :: s.groups⟩ := by
  obtain ⟨gap, hgap, hsplit⟩ := Text.exists_eq_trimEnd_append (c :: t)
  have hlast := fun d => isBlank_getLast_trimEnd (t := c :: t) (c := d)
  cases htrim : Text.trimEnd (c :: t) with
  | nil => exact absurd htrim (trimEnd_ne_nil t hc)
  | cons d line =>
    rw [htrim, List.cons_append] at hsplit
    rw [htrim] at hlast
    obtain ⟨rfl, rfl⟩ := List.cons.inj hsplit
    have hbreak : '\n' ≠ c := by
      rintro rfl
      exact absurd hc (by decide)
    refine ⟨s.index + 1 + line.length + gap.length, ?_⟩
    by_cases hline : '\n' ∈ line
    · rw [if_pos (List.mem_cons_of_mem _ hline), head?_ways_source_of_break hlast h hc hline]
    · rw [if_neg (by simp [hline, hbreak]), head?_ways_source_of_line hlast h hc hgap hline]

theorem groups_ways_source (h : ∀ c, s.rest.head? = some c → isBlank c = false) :
    (sourcePattern.ways s).head?.map State.groups =
      if (Text.trimEnd s.rest).isEmpty || (Text.trimEnd s.rest).contains '\n' then none
      else some ((4, Text.trimEnd s.rest) :: s.groups) := by
  cases hrest : s.rest with
  | nil =>
    have hnone : sourcePattern.ways s = [] := by
      rw [ways_eq_into, sourcePattern, into_all_cons, into_group, into_seq]
      exact into_char_nil _ _ hrest
    rw [hnone]
    rfl
  | cons c t =>
    have hc : isBlank c = false := h c (by rw [hrest]; rfl)
    obtain ⟨i, hi⟩ := head?_ways_source hrest hc
    have hne : (Text.trimEnd (c :: t)).isEmpty = false :=
      List.isEmpty_eq_false_iff.2 (trimEnd_ne_nil t hc)
    rw [hi, hne, Bool.false_or, List.contains_eq_mem]
    by_cases hline : '\n' ∈ Text.trimEnd (c :: t) <;> simp [hline]

/-! ### The head -/

theorem refuses_names (k : State → List State) : Refuses isBlank (namesPattern.into k) := by
  refine refuses_choice ?_ (refuses_identifier 3 k)
  rw [into_all_cons]
  exact refuses_mark (by decide) _

theorem refuses_keyword (k : State → List State) :
    Refuses isBlank ((choice (word "in") (word "of")).into k) := by
  have hword : ∀ (c : Char) (t : Text), isBlank c = false →
      Refuses isBlank ((word (c :: t)).into k) := by
    intro c t hc
    rw [into_word_cons]
    exact refuses_mark hc _
  exact refuses_choice (hword 'i' _ (by decide)) (hword 'o' _ (by decide))

theorem refuses_source (k : State → List State) : Refuses isBlank (sourcePattern.into k) := by
  intro s c hhead hc
  rw [sourcePattern, into_all_cons, into_group, into_seq]
  exact into_char_of_not _ hhead (by simp [hc])

theorem not_isBlank_of_blanks? {t rest : Text} (h : blanks? t = some rest) {c : Char}
    (hhead : rest.head? = some c) : isBlank c = false := by
  cases t with
  | nil => cases h
  | cons d t =>
    rw [blanks?] at h
    split at h
    · cases h
      exact Text.isBlank_of_head?_dropWhile hhead
    · cases h

/-- The keyword between blanks and the list after it, with the groups they add. -/
theorem groups_after_names (s : State) :
    ((oneOrMore isBlank).into ((choice (word "in") (word "of")).into
      ((oneOrMore isBlank).into (sourcePattern.into fun t => [t]))) s).head?.map State.groups =
      match (blanks? s.rest).bind keyword? |>.bind blanks? with
      | none => none
      | some t =>
        if (Text.trimEnd t).isEmpty || (Text.trimEnd t).contains '\n' then none
        else some ((4, Text.trimEnd t) :: s.groups) := by
  cases hfirst : blanks? s.rest with
  | none =>
    rw [into_oneOrMore_none hfirst]
    rfl
  | some t =>
    obtain ⟨i, hi⟩ := into_oneOrMore_some (refuses_keyword ((oneOrMore isBlank).into
      (sourcePattern.into fun t => [t]))) hfirst
    rw [hi, Option.bind_some]
    cases hword : keyword? t with
    | none =>
      rw [into_keyword_none hword]
      rfl
    | some u =>
      obtain ⟨j, hj⟩ := into_keyword_some (s := ⟨i, t, s.groups⟩)
        (k := (oneOrMore isBlank).into (sourcePattern.into fun t => [t])) hword
      rw [hj, Option.bind_some]
      cases hsecond : blanks? u with
      | none =>
        rw [into_oneOrMore_none hsecond]
        rfl
      | some w =>
        obtain ⟨l, hl⟩ := into_oneOrMore_some (s := ⟨j, u, s.groups⟩)
          (refuses_source fun t => [t]) hsecond
        rw [hl, ← ways_eq_into, groups_ways_source fun c => not_isBlank_of_blanks? hsecond]

/-- The groups of the leftmost match of a head are what is read from left to right. -/
theorem parse?_eq_scan? (t : Text) : parse? t = scan? t := by
  have hk : ∀ k, Refuses isIdentifierChar ((oneOrMore isBlank).into k) := by
    intro k
    rw [oneOrMore, into_seq]
    exact refuses_char (fun c hc => isBlank_of_isIdentifierChar hc) _
  have hparse : parse? t =
      (((all [many isBlank, namesPattern, oneOrMore isBlank, choice (word "in") (word "of"),
        oneOrMore isBlank, sourcePattern]).ways ⟨0, t, []⟩).head?.map State.groups).map
        ofGroups := by
    rw [parse?, headPattern, find?_start, Option.map_map]
    rfl
  rw [hparse, ways_eq_into, into_all_cons, into_all_cons, into_all_cons, into_all_cons,
    into_all_cons, into_all_cons, into_all_nil, into_blanks (refuses_names _), scan?,
    ← rest_skipBlanks ⟨0, t, []⟩]
  rcases afterNames_names (hk _) (skipBlanks ⟨0, t, []⟩) with
    ⟨hnames, hways⟩ | ⟨item, index, rest, i, names, hnames, hgroups, hways⟩
  · rw [hnames, hways]
    rfl
  · have hbefore : (skipBlanks ⟨0, t, []⟩).groups = [] := rfl
    rw [hnames, hways, hbefore, List.append_nil, groups_after_names]
    simp only
    cases (blanks? rest).bind keyword? |>.bind blanks? with
    | none => rfl
    | some source =>
      simp only
      split
      · rfl
      · rw [Option.map_some, hgroups.ofGroups]

end Loop

end Wxml
