import Mathlib.Data.List.Lex
import Mathlib.Data.List.Sort
import Wxml.Proofs.PathPlaces
import Wxml.Proofs.RunEffects

/-!
# Finding files

Paths are in a strict linear order, up to how they are written (`Path.order_eq_lt_iff`,
`Path.order_eq_eq_iff`).  So the files that a run finds, sorted and without repeats, are a strictly
increasing list of what there is to find (`Session.Listed`), and what there is to find decides it
(`Session.Listed.components_eq`): neither the order of the roots matters, nor how often one is
given, nor whether one lies below another.

What there is to find is what the walks from the roots come across (`FileSystem.Walked`).  If they
do what walks are assumed to do (`FileSystem.Walks`), it is whatever the roots and the paths below
them lead to (`FileSystem.Reaches`).
-/

namespace Wxml

namespace Path

/-! ### The order of paths -/

/-- The text of a component that is a name. -/
def Component.label : Component → Text
  | name s => s
  | _ => []

/-- A text comes before another: its code point does where they first differ, or it ends there. -/
def TextPrecedes : Text → Text → Prop := List.Lex fun a b => a.toNat < b.toNat

/-- A component comes before another: its kind does, or both are names and its text does. -/
def Component.Precedes (c d : Component) : Prop :=
  c.rank < d.rank ∨ c.rank = d.rank ∧ TextPrecedes c.label d.label

/-- A path comes before another: its component does where they first differ, or it ends there. -/
def Precedes (p q : Path) : Prop := List.Lex Component.Precedes p.components q.components

theorem compareLex_eq_lt_iff {α : Type} {cmp : α → α → Ordering} [Std.LawfulEqCmp cmp]
    {as bs : List α} :
    as.compareLex cmp bs = .lt ↔ List.Lex (fun a b => cmp a b = .lt) as bs := by
  induction as generalizing bs with
  | nil =>
    cases bs with
    | nil => simp [List.compareLex_nil_nil]
    | cons b bs => exact iff_of_true List.compareLex_nil_cons .nil
  | cons a as ih =>
    cases bs with
    | nil => simp [List.compareLex_cons_nil]
    | cons b bs =>
      rw [List.compareLex_cons_cons, Ordering.then_eq_lt, List.cons_lex_cons_iff, ih,
        Std.LawfulEqCmp.compare_eq_iff_eq]

/-- A comparison of lists by their first elements and then by what follows is lexicographic. -/
theorem eq_compareLex {α : Type} {cmp : α → α → Ordering} {f : List α → List α → Ordering}
    (hnil : f [] [] = .eq) (hlt : ∀ b bs, f [] (b :: bs) = .lt) (hgt : ∀ a as, f (a :: as) [] = .gt)
    (hcons : ∀ a as b bs, f (a :: as) (b :: bs) = (cmp a b).then (f as bs)) :
    f = List.compareLex cmp := by
  funext as bs
  induction as generalizing bs with
  | nil =>
    cases bs with
    | nil => exact hnil
    | cons b bs => exact hlt b bs
  | cons a as ih =>
    cases bs with
    | nil => exact hgt a as
    | cons b bs => rw [hcons, List.compareLex_cons_cons, ih]

theorem compareText_eq_compareLex : compareText = List.compareLex (compareOn Char.toNat) :=
  eq_compareLex rfl (fun _ _ => rfl) (fun _ _ => rfl) fun _ _ _ _ => rfl

instance : Std.LawfulEqCmp (compareOn Char.toNat) where
  compare_self := Nat.compare_eq_eq.2 rfl
  eq_of_compare h := Char.toNat_inj.1 (Nat.compare_eq_eq.1 h)

instance : Std.TransCmp compareText :=
  compareText_eq_compareLex ▸ List.instTransCmpCompareLex

instance : Std.LawfulEqCmp compareText :=
  compareText_eq_compareLex ▸ List.instLawfulEqCmpCompareLex

theorem compareText_eq_lt_iff {s t : Text} : compareText s t = .lt ↔ TextPrecedes s t := by
  rw [compareText_eq_compareLex, compareLex_eq_lt_iff]
  simp only [compareOn, Nat.compare_eq_lt]
  rfl

namespace Component

theorem order_eq_then (c d : Component) :
    c.order d = (compare c.rank d.rank).then (compareText c.label d.label) := by
  cases c <;> cases d <;> rfl

theorem eq_of_label_eq {c d : Component} (hrank : c.rank = d.rank) (hlabel : c.label = d.label) :
    c = d := by
  cases c <;> cases d <;> first | rfl | exact congrArg name hlabel | cases hrank

instance : Std.TransCmp order where
  eq_swap {c d} := by
    rw [order_eq_then, order_eq_then, Ordering.swap_then, ← Std.OrientedCmp.eq_swap,
      ← Std.OrientedCmp.eq_swap]
  isLE_trans {c d e} h h' := by
    rw [order_eq_then, Ordering.isLE_then_iff_and] at h h' ⊢
    refine ⟨Std.TransCmp.isLE_trans h.1 h'.1, ?_⟩
    rcases h.2 with hkind | htext
    · exact .inl (Std.TransCmp.lt_of_lt_of_isLE hkind h'.1)
    · rcases h'.2 with hkind | htext'
      · exact .inl (Std.TransCmp.lt_of_isLE_of_lt h.1 hkind)
      · exact .inr (Std.TransCmp.isLE_trans htext htext')

instance : Std.LawfulEqCmp order where
  compare_self {c} := by
    rw [order_eq_then, Ordering.then_eq_eq]
    exact ⟨Std.ReflCmp.compare_self, Std.ReflCmp.compare_self⟩
  eq_of_compare {c d} h := by
    rw [order_eq_then, Ordering.then_eq_eq] at h
    exact eq_of_label_eq (Nat.compare_eq_eq.1 h.1) (Std.LawfulEqCmp.eq_of_compare h.2)

theorem order_eq_lt_iff {c d : Component} : c.order d = .lt ↔ c.Precedes d := by
  rw [order_eq_then, Ordering.then_eq_lt, Nat.compare_eq_lt, Nat.compare_eq_eq,
    compareText_eq_lt_iff, Precedes]

instance : Std.Asymm Precedes where
  asymm c d h h' := by
    rw [← order_eq_lt_iff] at h h'
    exact Std.OrientedCmp.not_lt_of_lt h h'

end Component

theorem compareComponents_eq_compareLex : compareComponents = List.compareLex Component.order :=
  eq_compareLex rfl (fun _ _ => rfl) (fun _ _ => rfl) fun _ _ _ _ => rfl

instance : Std.TransCmp compareComponents :=
  compareComponents_eq_compareLex ▸ List.instTransCmpCompareLex

instance : Std.LawfulEqCmp compareComponents :=
  compareComponents_eq_compareLex ▸ List.instLawfulEqCmpCompareLex

instance : Std.TransCmp order where
  eq_swap {p q} := by
    rw [order, order, ← Std.OrientedCmp.eq_swap]
  isLE_trans {p q r} h h' := by
    rw [order] at h h' ⊢
    exact Std.TransCmp.isLE_trans h h'

variable {p q : Path}

theorem order_eq_lt_iff : p.order q = .lt ↔ p.Precedes q := by
  rw [order, compareComponents_eq_compareLex, compareLex_eq_lt_iff]
  simp only [Component.order_eq_lt_iff]
  rfl

theorem order_eq_eq_iff : p.order q = .eq ↔ p.components = q.components := by
  rw [order, Std.LawfulEqCmp.compare_eq_iff_eq]

theorem order_eq_lt_of_isLE (h : (p.order q).isLE = true) (hsame : p.same q ≠ true) :
    p.order q = .lt := by
  rcases Ordering.isLE_iff_eq_lt_or_eq_eq.1 h with hlt | heq
  · exact hlt
  · exact absurd (beq_iff_eq.2 (order_eq_eq_iff.1 heq)) hsame

end Path

namespace FileSystem

variable {σ : Type} [FileSystem σ] {files : σ} {root p : Path} {kind : Kind}

/-! ### Walks -/

/-- What a walk from a root comes across. -/
def Walked (files : σ) (root p : Path) (kind : Kind) : Prop := (p, kind) ∈ walk files root

/-- What a root leads to, or the root joined with some names. -/
def Reaches (files : σ) (root p : Path) (kind : Kind) : Prop :=
  ∃ names, (∀ n ∈ names, Path.isName n = true) ∧ p = root.descend names ∧
    kind? files p = some kind

/-- What is assumed of a walk: it comes across every entry below the root once. -/
structure Walks (files : σ) (root : Path) : Prop where
  once : ((below files root).map Prod.fst).Nodup
  entry : ∀ {names kind}, (names, kind) ∈ below files root ↔
    names ≠ [] ∧ (∀ n ∈ names, Path.isName n = true) ∧
      kind? files (root.descend names) = some kind

theorem walked_iff :
    Walked files root p kind ↔
      (p = root ∧ kind? files root = some kind) ∨
        ∃ names, (names, kind) ∈ below files root ∧ p = root.descend names := by
  simp only [Walked, walk, List.mem_append, List.mem_map, Option.mem_toList,
    Prod.mk.injEq, Prod.exists]
  constructor
  · rintro (⟨_, hkind, rfl, rfl⟩ | ⟨names, _, hmem, rfl, rfl⟩)
    · exact .inl ⟨rfl, hkind⟩
    · exact .inr ⟨names, hmem, rfl⟩
  · rintro (⟨rfl, hkind⟩ | ⟨names, hmem, rfl⟩)
    · exact .inl ⟨kind, hkind, rfl, rfl⟩
    · exact .inr ⟨names, kind, hmem, rfl, rfl⟩

theorem Walks.walked_iff_reaches (h : Walks files root) :
    Walked files root p kind ↔ Reaches files root p kind := by
  rw [walked_iff]
  constructor
  · rintro (⟨rfl, hkind⟩ | ⟨names, hmem, rfl⟩)
    · exact ⟨[], by simp, rfl, hkind⟩
    · obtain ⟨-, hnames, hkind⟩ := h.entry.1 hmem
      exact ⟨names, hnames, rfl, hkind⟩
  · rintro ⟨names, hnames, rfl, hkind⟩
    cases names with
    | nil => exact .inl ⟨rfl, hkind⟩
    | cons n names => exact .inr ⟨n :: names, h.entry.2 ⟨by simp, hnames, hkind⟩, rfl⟩

end FileSystem

namespace Files

open FileSystem (Kind Walks)

variable {files : Files} {root : Path} {base location : Location} {names : List Text} {kind : Kind}

theorem below?_eq_some_iff : below? base location = some names ↔
    location = base ++ names ∧ names ≠ [] := by
  induction base generalizing location with
  | nil =>
    cases location with
    | nil => simp [below?]
    | cons m location =>
      have hbelow : below? [] (m :: location) = some (m :: location) := rfl
      rw [hbelow, Option.some.injEq, List.nil_append]
      exact ⟨fun h => ⟨h, h ▸ List.cons_ne_nil m location⟩, And.left⟩
  | cons n base ih =>
    cases location with
    | nil => simp [below?]
    | cons m location =>
      by_cases hname : n = m
      · simp [below?, hname, ih]
      · simp [below?, hname, Ne.symm hname]

theorem nodup_given (files : Files) : files.given.Nodup := by
  refine List.Nodup.map_on ?_ List.nodup_range
  intro m hm n hn htake
  have hlength := congrArg List.length htake
  simp only [List.mem_range, List.length_take] at hm hn hlength
  omega

theorem mem_given_iff : location ∈ files.given ↔ location <+: files.here := by
  simp only [given, List.mem_map, List.mem_range]
  constructor
  · rintro ⟨n, -, rfl⟩
    exact List.take_prefix n files.here
  · intro h
    exact ⟨location.length, Nat.lt_succ_of_le h.length_le, (List.prefix_iff_eq_take.1 h).symm⟩

theorem nodup_places (files : Files) : files.places.Nodup := by
  unfold places
  induction files.entries with
  | nil => exact files.nodup_given
  | cons entry entries ih => exact ih.insert

theorem mem_places_iff :
    location ∈ files.places ↔ location <+: files.here ∨ location ∈ files.entries.map Prod.fst := by
  unfold places
  induction files.entries with
  | nil => simp [mem_given_iff]
  | cons entry entries ih =>
    rw [List.foldr_cons, List.mem_insert_iff, ih, List.map_cons, List.mem_cons, or_left_comm]

/-- Whatever is somewhere is at one of the places. -/
theorem mem_places_of_get? {entry : Entry} (h : files.get? location = some entry) :
    location ∈ files.places := by
  rw [mem_places_iff]
  unfold get? at h
  split at h
  · rename_i hgiven
    exact .inl (List.isPrefixOf_iff_prefix.1 hgiven)
  · obtain ⟨first, second, hentries, -⟩ := List.lookup_eq_some_iff.1 h
    exact .inr (by simp [hentries])

theorem walked?_eq_some_iff :
    files.walked? root base location = some (names, kind) ↔
      location = base ++ names ∧ names ≠ [] ∧ (∀ n ∈ names, Path.isName n = true) ∧
        files.kind? (root.descend names) = some kind := by
  unfold walked?
  cases hbelow : below? base location with
  | none =>
    have hnone : ¬ (location = base ++ names ∧ names ≠ []) := by
      rw [← below?_eq_some_iff, hbelow]
      exact nofun
    simp only [reduceCtorEq, false_iff]
    exact fun h => hnone ⟨h.1, h.2.1⟩
  | some others =>
    obtain ⟨rfl, hothers⟩ := below?_eq_some_iff.1 hbelow
    rw [List.append_cancel_left_eq]
    by_cases hall : others.all Path.isName = true
    · simp only [hall, if_true, Option.map_eq_some_iff, Prod.mk.injEq]
      constructor
      · rintro ⟨_, hkind, rfl, rfl⟩
        exact ⟨rfl, hothers, List.all_eq_true.1 hall, hkind⟩
      · rintro ⟨rfl, -, -, hkind⟩
        exact ⟨kind, hkind, rfl, rfl⟩
    · simp only [hall]
      constructor
      · exact nofun
      · rintro ⟨rfl, -, hnames, -⟩
        exact absurd (List.all_eq_true.2 hnames) hall

/-- Files as a value are walked through as is assumed. -/
theorem walks (h : (files.kind? root).isSome = true) : Walks files root := by
  obtain ⟨rootKind, hroot⟩ := Option.isSome_iff_exists.1 h
  obtain ⟨base, -, hlocate, -⟩ := kind?_eq_some_iff.1 hroot
  have hbelow : FileSystem.below files root = files.places.filterMap (files.walked? root base) := by
    change files.below root = _
    simp only [below, hlocate]
  constructor
  case once =>
    rw [hbelow, List.map_filterMap]
    refine files.nodup_places.filterMap fun l l' names hl hl' => ?_
    obtain ⟨⟨_, kind⟩, hwalked, rfl⟩ := Option.map_eq_some_iff.1 hl
    obtain ⟨⟨_, kind'⟩, hwalked', rfl⟩ := Option.map_eq_some_iff.1 hl'
    rw [(walked?_eq_some_iff.1 hwalked).1, (walked?_eq_some_iff.1 hwalked').1]
  case entry =>
    intro names kind
    simp only [hbelow, List.mem_filterMap, walked?_eq_some_iff]
    constructor
    · rintro ⟨_, -, -, hentry⟩
      exact hentry
    · intro hentry
      obtain ⟨location, entry, hplace, hget, -⟩ := kind?_eq_some_iff.1 hentry.2.2
      have hlocation : location = base ++ names := by
        rw [← place_of_locate hplace, files.place_descend root hentry.2.1, place_of_locate hlocate]
      exact ⟨location, mem_places_of_get? hget, hlocation, hentry⟩

end Files

namespace Session

open FileSystem (Kind Reaches Walked Walks kind?)

variable {σ : Type} [FileSystem σ] {s t : Session} {files : σ} {p root : Path}

/-! ### What there is to find -/

/-- A file to convert at a root from which one comes across something: the root itself if it is a
file, whether ignored or not, or what is no directory and not ignored. -/
inductive FoundAt (met : Path → Kind → Prop) (c : Config) (files : σ) (root : Path) : Path → Prop
  | root (hroot : kind? files root = some .file) (hext : c.hasExtension root = true) :
    FoundAt met c files root root
  | met {p : Path} {kind : Kind} (hroot : kind? files root ≠ some .file) (hmet : met p kind)
    (hkind : kind ≠ .directory) (hprocess : c.shouldProcess p = true) : FoundAt met c files root p

/-- A file to convert. -/
def Candidate (s : Session) (files : σ) (met : Path → Path → Kind → Prop) (p : Path) : Prop :=
  ∃ root ∈ s.roots, FoundAt (met root) s.config files root p

theorem Candidate.hasExtension {met : Path → Path → Kind → Prop} (h : s.Candidate files met p) :
    s.config.hasExtension p = true := by
  obtain ⟨root, -, hfound⟩ := h
  cases hfound with
  | root hroot hext => exact hext
  | met hroot hmet hkind hprocess => exact (Bool.and_eq_true_iff.1 hprocess).1

theorem candidate_congr {met met' : Path → Path → Kind → Prop} (hconfig : t.config = s.config)
    (hroots : ∀ root, root ∈ t.roots ↔ root ∈ s.roots)
    (hmet : ∀ root ∈ s.roots, ∀ p kind, met' root p kind ↔ met root p kind) :
    t.Candidate files met' p ↔ s.Candidate files met p := by
  have hsame : ∀ root ∈ s.roots, met' root = met root := fun root hroot =>
    funext fun p => funext fun kind => propext (hmet root hroot p kind)
  constructor
  · rintro ⟨root, hroot, hfound⟩
    have hroot := (hroots root).1 hroot
    rw [hconfig, hsame root hroot] at hfound
    exact ⟨root, hroot, hfound⟩
  · rintro ⟨root, hroot, hfound⟩
    rw [← hconfig, ← hsame root hroot] at hfound
    exact ⟨root, (hroots root).2 hroot, hfound⟩

theorem exists_filesAt (s : Session) (h : (kind? files root).isSome = true) :
    ∃ here, s.filesAt files root = .ok here := by
  unfold filesAt
  split
  · rename_i hnone
    simp [hnone] at h
  · exact ⟨_, rfl⟩
  · exact ⟨_, rfl⟩

theorem mem_filesAt_iff {here : List Path} (h : s.filesAt files root = .ok here) :
    p ∈ here ↔ FoundAt (Walked files root) s.config files root p := by
  unfold filesAt at h
  split at h
  · cases h
  · rename_i hroot
    cases h
    constructor
    · intro hp
      split at hp
      · rename_i hext
        rw [List.mem_singleton.1 hp]
        exact .root hroot hext
      · cases hp
    · intro hp
      cases hp with
      | root _ hext =>
        rw [if_pos hext]
        exact List.mem_singleton_self _
      | met hother => exact absurd hroot hother
  · rename_i kind hother hroot
    have hnotFile : kind? files root ≠ some .file := by
      rw [hroot]
      exact fun hfile => hother (Option.some.inj hfile)
    cases h
    simp only [List.mem_map, List.mem_filter, Bool.and_eq_true, bne_iff_ne, Prod.exists]
    constructor
    · rintro ⟨_, _, ⟨hwalked, hkind, hprocess⟩, rfl⟩
      exact .met hnotFile hwalked hkind hprocess
    · intro hp
      cases hp with
      | root hfile => exact absurd hfile hnotFile
      | met _ hwalked hkind hprocess => exact ⟨p, _, ⟨hwalked, hkind, hprocess⟩, rfl⟩

theorem exists_collect (s : Session) {roots : List Path}
    (h : ∀ root ∈ roots, (kind? files root).isSome = true) :
    ∃ found, s.collect files roots = .ok found := by
  induction roots with
  | nil => exact ⟨[], rfl⟩
  | cons root roots ih =>
    obtain ⟨here, hhere⟩ := s.exists_filesAt (h root List.mem_cons_self)
    obtain ⟨found, hfound⟩ := ih fun r hr => h r (List.mem_cons_of_mem _ hr)
    exact ⟨here ++ found, by rw [collect, hhere, hfound]; rfl⟩

theorem mem_collect_iff {roots found : List Path} (h : s.collect files roots = .ok found) :
    p ∈ found ↔ ∃ root ∈ roots, FoundAt (Walked files root) s.config files root p := by
  induction roots generalizing found with
  | nil =>
    cases h
    simp
  | cons root roots ih =>
    rw [collect] at h
    cases hhere : s.filesAt files root with
    | error fault => simp [hhere] at h
    | ok here =>
      cases hrest : s.collect files roots with
      | error fault => simp [hhere, hrest, Except.map] at h
      | ok rest =>
        simp only [hhere, hrest, Except.map, Except.ok.injEq] at h
        subst h
        rw [List.mem_append, mem_filesAt_iff hhere, ih hrest, List.exists_mem_cons_iff]

/-! ### Sorting and dropping repeats -/

theorem mem_of_mem_dropRepeats {ps : List Path} (h : p ∈ dropRepeats ps) : p ∈ ps := by
  fun_induction dropRepeats ps with
  | case1 => cases h
  | case2 q => exact h
  | case3 first second ps hsame ih =>
    rcases List.mem_cons.1 (ih h) with rfl | hmem
    · exact List.mem_cons_self
    · exact List.mem_cons_of_mem _ (List.mem_cons_of_mem _ hmem)
  | case4 first second ps hsame ih =>
    rcases List.mem_cons.1 h with rfl | hmem
    · exact List.mem_cons_self
    · exact List.mem_cons_of_mem _ (ih hmem)

theorem pairwise_dropRepeats {ps : List Path}
    (h : ps.Pairwise fun p q => (p.order q).isLE = true) :
    (dropRepeats ps).Pairwise fun p q => p.order q = .lt := by
  fun_induction dropRepeats ps with
  | case1 => exact .nil
  | case2 p => exact List.pairwise_singleton _ _
  | case3 p q ps hsame ih =>
    exact ih (h.sublist (List.Sublist.cons_cons p (List.sublist_cons_self q ps)))
  | case4 p q ps hsame ih =>
    obtain ⟨hfirst, hrest⟩ := List.pairwise_cons.1 h
    refine List.pairwise_cons.2 ⟨fun r hr => ?_, ih hrest⟩
    -- The order is strict at the first step, which is enough for all that follows.
    have hpq : p.order q = .lt :=
      Path.order_eq_lt_of_isLE (hfirst q List.mem_cons_self) hsame
    rcases List.mem_cons.1 (mem_of_mem_dropRepeats hr) with rfl | hlater
    · exact hpq
    · exact Std.TransCmp.lt_of_lt_of_isLE hpq ((List.pairwise_cons.1 hrest).1 r hlater)

theorem exists_mem_dropRepeats {ps : List Path} (h : p ∈ ps) :
    ∃ q ∈ dropRepeats ps, q.components = p.components := by
  fun_induction dropRepeats ps generalizing p with
  | case1 => cases h
  | case2 q => exact ⟨p, h, rfl⟩
  | case3 first second ps hsame ih =>
    rcases List.mem_cons.1 h with rfl | h
    · exact ih List.mem_cons_self
    · rcases List.mem_cons.1 h with rfl | h
      · obtain ⟨q, hq, hcomponents⟩ := ih List.mem_cons_self
        exact ⟨q, hq, hcomponents.trans (beq_iff_eq.1 hsame)⟩
      · exact ih (List.mem_cons_of_mem _ h)
  | case4 first second ps hsame ih =>
    rcases List.mem_cons.1 h with rfl | h
    · exact ⟨p, List.mem_cons_self, rfl⟩
    · obtain ⟨q, hq, hcomponents⟩ := ih h
      exact ⟨q, List.mem_cons_of_mem _ hq, hcomponents⟩

theorem pairwise_sorted (ps : List Path) :
    (ps.mergeSort fun p q => (p.order q).isLE).Pairwise fun p q => (p.order q).isLE = true := by
  apply List.pairwise_mergeSort
  · exact fun p q r hpq hqr => Std.TransCmp.isLE_trans hpq hqr
  · intro p q
    have hswap : q.order p = (p.order q).swap := Std.OrientedCmp.eq_swap
    rw [hswap]
    cases p.order q <;> rfl

/-! ### The list -/

/-- A strictly increasing list of all files to convert, each written in one of the ways it can be
come across. -/
structure Listed (s : Session) (files : σ) (met : Path → Path → Kind → Prop) (found : List Path) :
    Prop where
  increasing : found.Pairwise Path.Precedes
  candidate : ∀ p ∈ found, s.Candidate files met p
  complete : ∀ p, s.Candidate files met p → ∃ q ∈ found, q.components = p.components

namespace Listed

variable {met met' : Path → Path → Kind → Prop} {found found' : List Path}

theorem congr (h : s.Listed files met found)
    (hsame : ∀ p, s.Candidate files met' p ↔ s.Candidate files met p) :
    s.Listed files met' found :=
  ⟨h.increasing, fun p hp => (hsame p).2 (h.candidate p hp),
    fun p hp => h.complete p ((hsame p).1 hp)⟩

theorem mem_components_iff (h : s.Listed files met found) {cs : List Path.Component} :
    cs ∈ found.map Path.components ↔ ∃ p, s.Candidate files met p ∧ p.components = cs := by
  rw [List.mem_map]
  constructor
  · rintro ⟨p, hp, hcs⟩
    exact ⟨p, h.candidate p hp, hcs⟩
  · rintro ⟨p, hp, hcs⟩
    obtain ⟨q, hq, hsame⟩ := h.complete p hp
    exact ⟨q, hq, hsame.trans hcs⟩

theorem pairwise_components (h : s.Listed files met found) :
    (found.map Path.components).Pairwise (List.Lex Path.Component.Precedes) :=
  List.pairwise_map.2 h.increasing

/-- What there is to find decides the list, but for how its paths are written. -/
theorem components_eq (h : s.Listed files met found) (h' : t.Listed files met' found')
    (hsame : ∀ p, t.Candidate files met' p ↔ s.Candidate files met p) :
    found'.map Path.components = found.map Path.components := by
  refine h'.pairwise_components.eq_of_mem_iff h.pairwise_components fun cs => ?_
  rw [h'.mem_components_iff, h.mem_components_iff]
  simp only [hsame]

end Listed

theorem listed_of_discover {found : List Path} (h : s.discover files = .ok found) :
    s.Listed files (Walked files) found := by
  unfold discover at h
  cases hcollect : s.collect files s.roots with
  | error fault => simp [hcollect, Except.map] at h
  | ok collected =>
    simp only [hcollect, Except.map, Except.ok.injEq] at h
    subst h
    refine ⟨?_, fun p hp => ?_, fun p hp => ?_⟩
    · exact (pairwise_dropRepeats (pairwise_sorted collected)).imp Path.order_eq_lt_iff.1
    · exact (mem_collect_iff hcollect).1 (List.mem_mergeSort.1 (mem_of_mem_dropRepeats hp))
    · exact exists_mem_dropRepeats (List.mem_mergeSort.2 ((mem_collect_iff hcollect).2 hp))

theorem exists_discover (s : Session) (files : σ)
    (hroots : ∀ root ∈ s.roots, (kind? files root).isSome = true) :
    ∃ found, s.discover files = .ok found := by
  obtain ⟨found, hcollect⟩ := s.exists_collect hroots
  exact ⟨_, by rw [discover, hcollect]; rfl⟩

/-- Where all roots exist, a run finds all files to convert that its walks come across, in strictly
increasing order, and finds the same paths whatever the order of the roots and however often one is
given.  With walks as they are assumed to be, it finds whatever there is to convert at the roots and
below them. -/
theorem discover_canonical (s : Session) (files : σ)
    (hroots : ∀ root ∈ s.roots, (kind? files root).isSome = true) :
    ∃ found, s.discover files = .ok found ∧ s.Listed files (Walked files) found ∧
      ((∀ root ∈ s.roots, Walks files root) → s.Listed files (Reaches files) found) ∧
      (found.map Path.components).Nodup ∧ (∀ p ∈ found, s.config.hasExtension p = true) ∧
      ∀ t : Session, t.config = s.config → (∀ root, root ∈ t.roots ↔ root ∈ s.roots) →
        ∃ found', t.discover files = .ok found' ∧
          found'.map Path.components = found.map Path.components := by
  obtain ⟨found, hfound⟩ := s.exists_discover files hroots
  have hlisted := listed_of_discover hfound
  refine ⟨found, hfound, hlisted, fun hwalks => ?_, hlisted.pairwise_components.nodup,
    fun p hp => (hlisted.candidate p hp).hasExtension, fun t hconfig hsame => ?_⟩
  · exact hlisted.congr fun p => candidate_congr rfl (fun _ => Iff.rfl)
      fun root hroot p kind => (hwalks root hroot).walked_iff_reaches.symm
  · obtain ⟨found', hfound'⟩ :=
      t.exists_discover files fun root hroot => hroots root ((hsame root).1 hroot)
    refine ⟨found', hfound', hlisted.components_eq (listed_of_discover hfound') fun p => ?_⟩
    exact candidate_congr hconfig hsame fun _ _ _ _ => Iff.rfl

/-- Two files of one name, in the working directory and in a directory of it, and one beside it. -/
def nestedFiles : Files where
  here := ["w"]
  entries :=
    [(["w", "a.vue"], .file (Text.bytes "<template><p>1</p></template>")),
      (["w", "d"], .directory),
      (["w", "d", "a.vue"], .file (Text.bytes "<template><p>2</p></template>")),
      (["x.vue"], .file (Text.bytes "<template><p>3</p></template>"))]

/-- A run over some paths, as seen from the working directory. -/
def sessionFor (paths : List Path) : Session :=
  ⟨⟨⟨"."⟩, none, [".vue"], [], [], none, ⟨true, .default⟩⟩, { CommandLine.empty with paths }⟩

/-- The directory above the working directory, that itself, and a file below both which is written
in another way. -/
def overlapping : Session := sessionFor [⟨".."⟩, ⟨"."⟩, ⟨"d//a.vue"⟩]

/-- The same roots the other way round, and one of them twice. -/
def overlappingAgain : Session := sessionFor [⟨"d//a.vue"⟩, ⟨"d//a.vue"⟩, ⟨"."⟩, ⟨".."⟩]

theorem discover_canonical_overlapping :
    ∃ found found', overlapping.discover nestedFiles = .ok found ∧
      overlapping.Listed nestedFiles (Reaches nestedFiles) found ∧
      overlappingAgain.discover nestedFiles = .ok found' ∧
      found'.map Path.components =
        [[.current, .parent, .name "w", .name "a.vue"],
          [.current, .parent, .name "w", .name "d", .name "a.vue"],
          [.current, .parent, .name "x.vue"],
          [.current, .name "a.vue"],
          [.current, .name "d", .name "a.vue"]] := by
  have hcollect : overlapping.collect nestedFiles overlapping.roots =
      .ok [⟨"./../w/a.vue"⟩, ⟨"./../w/d/a.vue"⟩, ⟨"./../x.vue"⟩, ⟨"././a.vue"⟩, ⟨"././d/a.vue"⟩,
        ⟨"./d//a.vue"⟩] :=
    eq_ok_of_toOption (by decide +kernel)
  have hroots : ∀ root ∈ overlapping.roots, (kind? nestedFiles root).isSome = true := by
    decide +kernel
  have hagain : overlappingAgain.roots = ⟨"./d//a.vue"⟩ :: overlapping.roots.reverse := by
    decide +kernel
  have hrepeated : (⟨"./d//a.vue"⟩ : Path) ∈ overlapping.roots := by decide +kernel
  obtain ⟨found, hfound, -, hreached, -, -, hsame⟩ :=
    discover_canonical overlapping nestedFiles hroots
  obtain ⟨found', hfound', hsame⟩ := hsame overlappingAgain rfl fun root => by
    rw [hagain, List.mem_cons, List.mem_reverse]
    exact ⟨fun h => h.elim (fun hroot => hroot ▸ hrepeated) id, .inr⟩
  refine ⟨found, found', hfound, hreached fun root hroot => Files.walks (hroots root hroot),
    hfound', ?_⟩
  rw [discover_of_sorted hcollect (by decide +kernel)] at hfound
  cases hfound
  rw [hsame]
  decide +kernel

end Session

end Wxml
