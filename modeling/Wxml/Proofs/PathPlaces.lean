import Wxml.Proofs.FilesLawful
import Wxml.Proofs.TextLines

/-!
# Where paths lead

The components of a path decide where it leads.  Joining paths, taking the parent of one, seeing one
from another and changing an extension are operations on the text; `Path.components_join` and its
like say what they are on components.  `Files.place_of_locate` says that a path leads, if anywhere,
to the place that its components name, and `Files.directory_of_locate` that one without a file name
leads to a directory.
-/

namespace Wxml

namespace Path

open Text (splitOn)

/-! ### Splitting -/

/-- How a text is taken apart.  A first segment without an anchor is a component. -/
inductive Splits : Text → Anchor × List Text → Prop
  | empty : Splits [] (.relative, [])
  | absolute (t : Text) : Splits ('/' :: t) (.absolute, splitOn '/' t)
  | dot : Splits ['.'] (.current, [])
  | current (t : Text) : Splits ('.' :: '/' :: t) (.current, splitOn '/' t)
  | relative {t first : Text} {rest : List Text} (hsplit : splitOn '/' t = first :: rest)
    (hfirst : isSilent first = false) : Splits t (.relative, first :: rest)

theorem splits_split (p : Path) : Splits p.text p.split := by
  unfold split
  split
  · rename_i ht
    rw [ht]
    exact .empty
  · rename_i t ht
    rw [ht]
    exact .absolute t
  · rename_i ht
    rw [ht]
    exact .dot
  · rename_i t ht
    rw [ht]
    exact .current t
  · rename_i hempty hroot hdot hslash
    cases hsplit : splitOn '/' p.text with
    | nil => exact absurd hsplit (Text.splitOn_ne_nil _ _)
    | cons first rest =>
      refine .relative hsplit ?_
      -- a silent first segment would have been one of the other starts
      rcases htext : p.text with _ | ⟨c, t⟩
      · exact absurd htext hempty
      · have hc : c ≠ '/' := fun h => hroot t (by rw [htext, h])
        rw [htext, splitOn, if_neg (by simpa using hc)] at hsplit
        rcases t with _ | ⟨d, t⟩
        · have hdot : c ≠ '.' := fun h => hdot (by rw [htext, h])
          cases hsplit
          simp [isSilent, hdot]
        · by_cases hd : d = '/'
          · have hdot : c ≠ '.' := fun h => hslash t (by rw [htext, h, hd])
            rw [splitOn, if_pos (by simpa using hd)] at hsplit
            cases hsplit
            simp [isSilent, hdot]
          · rw [splitOn, if_neg (by simpa using hd)] at hsplit
            cases htail : splitOn '/' t with
            | nil => exact absurd htail (Text.splitOn_ne_nil _ _)
            | cons part parts =>
              rw [htail] at hsplit
              cases hsplit
              simp [isSilent]

theorem split_of_splits {t : Text} {r : Anchor × List Text} (h : Splits t r) :
    (⟨t⟩ : Path).split = r := by
  cases h with
  | empty => rfl
  | absolute t => rfl
  | dot => rfl
  | current t => rfl
  | relative hsplit hfirst =>
    unfold split
    split
    · rename_i ht
      cases ht
      cases hsplit
      simp [isSilent] at hfirst
    · rename_i t ht
      cases ht
      cases hsplit
      simp [isSilent] at hfirst
    · rename_i ht
      cases ht
      cases hsplit
      simp [isSilent] at hfirst
    · rename_i t ht
      cases ht
      simp [splitOn] at hsplit
      simp [isSilent, ← hsplit.1] at hfirst
    · rw [hsplit]

/-- The segments that are components, whatever the text starts with. -/
def named (t : Text) : List Component := (splitOn '/' t).filterMap component?

theorem components_eq (p : Path) : p.components = p.split.1.components ++ named p.text := by
  unfold components named
  have h := p.splits_split
  generalize p.split = r at h ⊢
  generalize p.text = t at h ⊢
  cases h with
  | empty => rfl
  | absolute t => simp [splitOn, component?, isSilent]
  | dot => rfl
  | current t => simp [splitOn, component?, isSilent]
  | relative hsplit hfirst => rw [hsplit]

theorem named_append_slash (s t : Text) : named (s ++ '/' :: t) = named s ++ named t := by
  rw [named, Text.splitOn_append_cons, List.filterMap_append]
  rfl

/-- More after a slash does not change where a path starts. -/
theorem anchor_append_slash {s : Text} (hs : s ≠ []) (t : Text) :
    (⟨s ++ '/' :: t⟩ : Path).split.1 = (⟨s⟩ : Path).split.1 := by
  have h := splits_split ⟨s⟩
  generalize (⟨s⟩ : Path).split = r at h ⊢
  simp only at h
  cases h with
  | empty => exact absurd rfl hs
  | absolute u => rfl
  | dot => rfl
  | current u => rfl
  | @relative _ first rest hsplit hfirst =>
    have hmore : splitOn '/' (s ++ '/' :: t) = first :: (rest ++ splitOn '/' t) := by
      rw [Text.splitOn_append_cons, hsplit, List.cons_append]
    rw [split_of_splits (.relative hmore hfirst)]

theorem components_append_slash {s : Text} (hs : s ≠ []) (t : Text) :
    (⟨s ++ '/' :: t⟩ : Path).components = (⟨s⟩ : Path).components ++ named t := by
  rw [components_eq, components_eq, anchor_append_slash hs, named_append_slash, List.append_assoc]

theorem components_of_relative {q : Path} (h : q.split.1 = .relative) :
    q.components = named q.text := by
  rw [components_eq, h]
  rfl

/-- The components of a joined path are those of both. -/
theorem components_join (p : Path) {q : Path} (h : q.split.1 = .relative) :
    (p.join q).components = p.components ++ q.components := by
  obtain ⟨s⟩ := p
  obtain ⟨t⟩ := q
  have hjoin : (⟨s⟩ : Path).join ⟨t⟩ =
      if s.isEmpty || s.getLast? = some '/' then ⟨s ++ t⟩ else ⟨s ++ '/' :: t⟩ := by
    unfold join
    split
    · rename_i u hu
      cases hu
      cases h
    · rfl
  rw [hjoin]
  split
  · rename_i hs
    rcases s.eq_nil_or_concat with rfl | ⟨u, c, rfl⟩
    · rfl
    · have hc : c = '/' := by simpa using hs
      subst hc
      have hslash : u.concat '/' = u ++ '/' :: [] := by simp
      rw [hslash, List.append_assoc, List.cons_append, List.nil_append]
      rcases u with _ | ⟨d, u⟩
      · rw [components_of_relative h]
        rfl
      · rw [components_append_slash (by simp), components_append_slash (by simp),
          components_of_relative h, List.append_assoc]
        rfl
  · rename_i hs
    have hne : s ≠ [] := by
      rintro rfl
      simp at hs
    rw [components_append_slash hne, components_of_relative h]

/-! ### Segments -/

theorem named_join {segments : List Text} (hslash : ∀ segment ∈ segments, '/' ∉ segment) :
    named (Text.join ['/'] segments) = segments.filterMap component? := by
  rcases segments with _ | ⟨segment, segments⟩
  · rfl
  · rw [named, Text.splitOn_join (by simp) hslash]

/-- Segments that are those of a path with this start. -/
structure Fits (anchor : Anchor) (segments : List Text) : Prop where
  slash : ∀ segment ∈ segments, '/' ∉ segment
  first : anchor = .relative → ∀ segment ∈ segments.head?, isSilent segment = false

theorem fits_split (p : Path) : Fits p.split.1 p.split.2 := by
  have h := p.splits_split
  generalize p.split = r at h ⊢
  generalize p.text = t at h
  cases h with
  | empty => exact ⟨by simp, by simp⟩
  | absolute t => exact ⟨fun s hs => Text.not_mem_of_mem_splitOn hs, by simp⟩
  | dot => exact ⟨by simp, by simp⟩
  | current t => exact ⟨fun s hs => Text.not_mem_of_mem_splitOn hs, by simp⟩
  | relative hsplit hfirst =>
    refine ⟨fun s hs => ?_, fun _ s hs => ?_⟩
    · rw [← hsplit] at hs
      exact Text.not_mem_of_mem_splitOn hs
    · cases hs
      exact hfirst

theorem anchor_ofSegments {anchor : Anchor} {segments : List Text} (h : Fits anchor segments) :
    (ofSegments anchor segments).split.1 = anchor := by
  cases anchor with
  | absolute => rfl
  | current =>
    rcases segments with _ | ⟨segment, segments⟩
    · rfl
    · rfl
  | relative =>
    rcases segments with _ | ⟨segment, segments⟩
    · rfl
    · have hsplit := Text.splitOn_join (by simp) h.slash
      exact congrArg Prod.fst (split_of_splits (.relative hsplit (h.first rfl segment rfl)))

theorem components_ofSegments {anchor : Anchor} {segments : List Text} (h : Fits anchor segments) :
    (ofSegments anchor segments).components =
      anchor.components ++ segments.filterMap component? := by
  have hnamed := named_join h.slash
  rw [components_eq, anchor_ofSegments h]
  congr 1
  cases anchor with
  | absolute => exact (named_append_slash [] _).trans hnamed
  | current =>
    rcases segments with _ | ⟨segment, segments⟩
    · rfl
    · exact (named_append_slash ['.'] _).trans hnamed
  | relative => exact hnamed

/-! ### The last component -/

theorem component?_of_isSilent {segment : Text} (h : isSilent segment = true) :
    component? segment = none := by
  rw [component?, if_pos h]

theorem isSilent_of_component? {segment : Text} {c : Component} (h : component? segment = some c) :
    isSilent segment = false := by
  cases hsilent : isSilent segment with
  | false => rfl
  | true => simp [component?_of_isSilent hsilent] at h

theorem exists_component? {segment : Text} (h : isSilent segment = false) :
    ∃ c, component? segment = some c := by
  unfold component?
  rw [if_neg (by simp [h])]
  split
  · exact ⟨_, rfl⟩
  · exact ⟨_, rfl⟩

theorem eq_of_component?_eq_name {segment n : Text} (h : component? segment = some (.name n)) :
    segment = n ∧ segment ≠ (".." : Text) := by
  unfold component? at h
  split at h
  · cases h
  · split at h
    · cases h
    · rename_i hparent
      cases h
      exact ⟨rfl, hparent⟩

theorem filterMap_dropWhile_isSilent (segments : List Text) :
    (segments.dropWhile isSilent).filterMap component? = segments.filterMap component? := by
  induction segments with
  | nil => rfl
  | cons segment segments ih =>
    by_cases h : isSilent segment = true
    · rw [List.dropWhile_cons_of_pos h, ih, List.filterMap_cons_none (component?_of_isSilent h)]
    · rw [List.dropWhile_cons_of_neg h]

theorem filterMap_backward (segments : List Text) :
    (backward segments).reverse.filterMap component? = segments.filterMap component? := by
  rw [List.filterMap_reverse, backward, filterMap_dropWhile_isSilent, List.filterMap_reverse,
    List.reverse_reverse]

theorem Fits.of_isPrefix {anchor : Anchor} {segments first : List Text} (h : Fits anchor segments)
    (hfirst : first <+: segments) : Fits anchor first where
  slash s hs := h.slash s (hfirst.subset hs)
  first hanchor s hs := by
    obtain ⟨rest, rfl⟩ := hfirst
    apply h.first hanchor
    rw [List.head?_append, hs]
    rfl

theorem Fits.replaceLast {anchor : Anchor} {before : List Text} {old new : Text}
    (h : Fits anchor (before ++ [old])) (hslash : '/' ∉ new) (hnew : isSilent new = false) :
    Fits anchor (before ++ [new]) where
  slash s hs := by
    rcases List.mem_append.1 hs with hs | hs
    · exact h.slash s (List.mem_append_left _ hs)
    · rw [List.mem_singleton.1 hs]
      exact hslash
  first hanchor s hs := by
    rcases before with _ | ⟨segment, before⟩
    · cases hs
      exact hnew
    · exact h.first hanchor s hs

theorem reverse_dropWhile_isPrefix (segments : List Text) :
    (segments.dropWhile isSilent).reverse <+: segments.reverse :=
  List.reverse_prefix.2 (List.dropWhile_suffix _)

theorem reverse_backward_isPrefix (segments : List Text) :
    (backward segments).reverse <+: segments := by
  have h := reverse_dropWhile_isPrefix segments.reverse
  rwa [List.reverse_reverse] at h

/-- The last segment that is a component, where that is a name. -/
theorem exists_backward {p : Path} {cs : List Component} {n : Text}
    (h : p.components = cs ++ [.name n]) :
    ∃ before, backward p.split.2 = n :: before ∧ n ≠ (".." : Text) ∧
      cs = p.split.1.components ++ before.reverse.filterMap component? := by
  rw [components, ← filterMap_backward] at h
  cases hlast : backward p.split.2 with
  | nil =>
    rw [hlast] at h
    cases hanchor : p.split.1 with
    | relative => simp [hanchor, Anchor.components] at h
    | current => simp [hanchor, Anchor.components, List.singleton_eq_append_iff] at h
    | absolute => simp [hanchor, Anchor.components, List.singleton_eq_append_iff] at h
  | cons last before =>
    have hloud : isSilent last = false := by
      have := List.head?_dropWhile_not isSilent p.split.2.reverse
      rw [backward] at hlast
      simpa [hlast] using this
    obtain ⟨c, hc⟩ := exists_component? hloud
    rw [hlast, List.reverse_cons, List.filterMap_append, ← List.append_assoc,
      List.filterMap_cons_some hc] at h
    obtain ⟨hcs, hname⟩ := List.append_inj' h rfl
    cases hname
    obtain ⟨rfl, hparent⟩ := eq_of_component?_eq_name hc
    exact ⟨before, rfl, hparent, hcs.symm⟩

/-- The path that contains a file. -/
theorem components_parent? {p : Path} {cs : List Component} {n : Text}
    (h : p.components = cs ++ [.name n]) :
    ∃ q, p.parent? = some q ∧ q.split.1 = p.split.1 ∧ q.components = cs := by
  obtain ⟨before, hbefore, -, rfl⟩ := exists_backward h
  have hparent : p.parent? =
      some (ofSegments p.split.1 (before.dropWhile isSilent).reverse) := by
    rw [parent?, parentSegments?]
    rw [backward] at hbefore
    simp [hbefore]
  have hfits : Fits p.split.1 (before.dropWhile isSilent).reverse := by
    have hall := reverse_backward_isPrefix p.split.2
    rw [hbefore, List.reverse_cons] at hall
    apply p.fits_split.of_isPrefix
    exact (reverse_dropWhile_isPrefix before).trans ((List.prefix_append _ _).trans hall)
  refine ⟨_, hparent, anchor_ofSegments hfits, ?_⟩
  rw [components_ofSegments hfits, List.filterMap_reverse, filterMap_dropWhile_isSilent,
    List.filterMap_reverse]

/-! ### Paths seen from others -/

theorem filterMap_dropComponents (n : Nat) (segments : List Text) :
    (dropComponents n segments).filterMap component? = (segments.filterMap component?).drop n := by
  induction segments generalizing n with
  | nil =>
    cases n with
    | zero => rfl
    | succ n => rfl
  | cons segment segments ih =>
    cases n with
    | zero => rw [dropComponents, filterMap_backward, filterMap_dropWhile_isSilent, List.drop_zero]
    | succ n =>
      rw [dropComponents]
      split
      · rename_i hsilent
        rw [ih, List.filterMap_cons_none (component?_of_isSilent hsilent)]
      · rename_i hloud
        obtain ⟨c, hc⟩ := exists_component? (by simpa using hloud)
        rw [ih, List.filterMap_cons_some hc, List.drop_succ_cons]

theorem fits_dropComponents (n : Nat) {segments : List Text}
    (h : ∀ segment ∈ segments, '/' ∉ segment) : Fits .relative (dropComponents n segments) := by
  induction segments generalizing n with
  | nil =>
    cases n with
    | zero => exact ⟨by simp [dropComponents, backward], by simp [dropComponents, backward]⟩
    | succ n => exact ⟨by simp [dropComponents], by simp [dropComponents]⟩
  | cons segment segments ih =>
    cases n with
    | zero =>
      rw [dropComponents]
      refine Fits.of_isPrefix ⟨fun s hs => ?_, fun _ s hs => ?_⟩ (reverse_backward_isPrefix _)
      · exact h s ((List.dropWhile_sublist _).subset hs)
      · have := List.head?_dropWhile_not isSilent (segment :: segments)
        rw [hs] at this
        simpa using this
    | succ n =>
      have hrest : ∀ s ∈ segments, '/' ∉ s := fun s hs => h s (List.mem_cons_of_mem _ hs)
      rw [dropComponents]
      split
      · exact ih (n + 1) hrest
      · exact ih n hrest

/-- Below another path, by names only. -/
def Below (p base : Path) : Prop :=
  ∃ (names : List Text) (n : Text), p.components = base.components ++ (names ++ [n]).map .name

theorem components_relativeTo? {p base : Path} {names : List Text}
    (h : p.components = base.components ++ names.map .name) :
    ∃ q, p.relativeTo? base = some q ∧ q.split.1 = .relative ∧
      q.components = names.map .name := by
  have hfits := fits_dropComponents (base.components.length - p.split.1.components.length)
    p.fits_split.slash
  refine ⟨_, if_pos ?_, anchor_ofSegments hfits, ?_⟩
  · rw [h, List.isPrefixOf_iff_prefix]
    exact List.prefix_append _ _
  rw [components_ofSegments hfits, filterMap_dropComponents]
  -- where the path starts is no name, so it is part of the other path
  have hstart : p.split.1.components.length ≤ base.components.length := by
    by_contra hlt
    have hanchor : p.split.1.components ++ p.split.2.filterMap component? =
        base.components ++ names.map .name := h
    cases hp : p.split.1 with
    | relative => simp [hp, Anchor.components] at hlt
    | current =>
      simp [hp, Anchor.components] at hlt
      rcases names with _ | ⟨name, names⟩ <;> simp [hp, hlt, Anchor.components] at hanchor
    | absolute =>
      simp [hp, Anchor.components] at hlt
      rcases names with _ | ⟨name, names⟩ <;> simp [hp, hlt, Anchor.components] at hanchor
  calc Anchor.relative.components ++ (p.split.2.filterMap component?).drop
        (base.components.length - p.split.1.components.length)
      = p.components.drop base.components.length := by
        have hp : p.components = p.split.1.components ++ p.split.2.filterMap component? := rfl
        rw [hp, List.drop_append, List.drop_eq_nil_of_le hstart]
        rfl
    _ = names.map .name := by rw [h, List.drop_left]

/-! ### Extensions -/

/-- A name with a dot, taken apart at the last one. -/
theorem exists_lastDot {name : Text} (h : '.' ∈ name) :
    ∃ before, name = before ++ '.' :: (name.reverse.takeWhile (· != '.')).reverse := by
  have hparts := List.takeWhile_append_dropWhile (p := (· != '.')) (l := name.reverse)
  cases hrest : name.reverse.dropWhile (· != '.') with
  | nil =>
    have hall := List.dropWhile_eq_nil_iff.1 hrest '.' (List.mem_reverse.2 h)
    simp at hall
  | cons c rest =>
    have hc : c = '.' := by
      have := List.head?_dropWhile_not (· != '.') name.reverse
      simpa [hrest] using this
    rw [hrest, hc] at hparts
    refine ⟨rest.reverse, ?_⟩
    calc name = (name.reverse.takeWhile (· != '.') ++ '.' :: rest).reverse := by
          rw [hparts, List.reverse_reverse]
      _ = rest.reverse ++ '.' :: (name.reverse.takeWhile (· != '.')).reverse := by simp

theorem splitExtension_append {stem extension : Text} (h : '.' ∉ extension) :
    splitExtension (stem ++ '.' :: extension) =
      if stem ++ '.' :: extension = (".." : Text) ∨ stem = []
        then (stem ++ '.' :: extension, none) else (stem, some extension) := by
  have hafter : ((stem ++ '.' :: extension).reverse.takeWhile (· != '.')).reverse = extension := by
    have hall : ∀ c ∈ extension.reverse, (c != '.') = true := by
      intro c hc
      simp only [bne_iff_ne]
      rintro rfl
      exact h (List.mem_reverse.1 hc)
    rw [List.reverse_append, List.reverse_cons, List.append_assoc,
      List.takeWhile_append_of_pos hall]
    simp
  have hbefore : (stem ++ '.' :: extension).take
      ((stem ++ '.' :: extension).length - extension.length - 1) = stem := by
    have hlength : (stem ++ '.' :: extension).length - extension.length - 1 = stem.length := by
      simp only [List.length_append, List.length_cons]
      omega
    rw [hlength, List.take_left]
  simp only [splitExtension, hafter, hbefore]
  simp

/-- A name without an extension, or with one that a stem comes before. -/
theorem splitExtension_cases (name : Text) :
    splitExtension name = (name, none) ∨
      ∃ stem extension, splitExtension name = (stem, some extension) ∧
        name = stem ++ '.' :: extension ∧ stem ≠ [] := by
  by_cases hdot : '.' ∈ name
  · obtain ⟨stem, hname⟩ := exists_lastDot hdot
    generalize hextension : (name.reverse.takeWhile (· != '.')).reverse = extension at hname
    have hclear : '.' ∉ extension := by
      rw [← hextension]
      intro hmem
      have := List.mem_takeWhile_imp (List.mem_reverse.1 hmem)
      simp at this
    have hsplit : splitExtension name =
        if name = (".." : Text) ∨ stem = [] then (name, none) else (stem, some extension) := by
      rw [hname]
      exact splitExtension_append hclear
    split at hsplit
    · exact .inl hsplit
    · rename_i hstem
      rw [not_or] at hstem
      exact .inr ⟨stem, extension, hsplit, hname, hstem.2⟩
  · left
    simp [splitExtension, hdot]

/-- A name with another extension: what stood before the old one is kept, unless that was a dot. -/
theorem renameExtension_eq {name : Text} (extension : Text) (hname : name ≠ (".." : Text)) :
    renameExtension extension name = (".." : Text) ∨
      ∃ stem, renameExtension extension name = stem ++ '.' :: extension ∧
        name = stem ++ ((splitExtension name).2.map ('.' :: ·)).getD [] := by
  rcases splitExtension_cases name with h | ⟨stem, old, h, rfl, hstem⟩
  · refine .inr ⟨name, ?_, by simp [h]⟩
    simp only [renameExtension, h]
    rw [if_neg hname, List.append_assoc]
    rfl
  · have hbase : renameExtension extension (stem ++ '.' :: old) =
        if stem ++ "." = (".." : Text) then stem ++ "."
        else (splitExtension (stem ++ ".")).1 ++ "." ++ extension := by
      simp only [renameExtension, h]
    rw [hbase]
    split
    · rename_i hdots
      exact .inl hdots
    · rename_i hdots
      have hagain : splitExtension (stem ++ ".") = (stem, some []) :=
        (splitExtension_append (by simp)).trans (if_neg (not_or.2 ⟨hdots, hstem⟩))
      refine .inr ⟨stem, ?_, by simp [h]⟩
      rw [hagain, List.append_assoc]
      rfl

/-- Names with the same extension are told apart when they get another one. -/
theorem eq_of_renameExtension_eq {m n extension : Text} (hm : m ≠ (".." : Text))
    (hn : n ≠ (".." : Text)) (hsame : (splitExtension m).2 = (splitExtension n).2)
    (hfile : renameExtension extension m ≠ (".." : Text))
    (h : renameExtension extension m = renameExtension extension n) : m = n := by
  rcases renameExtension_eq extension hm with hdots | ⟨stem, hstem, hmstem⟩
  · exact absurd hdots hfile
  rcases renameExtension_eq extension hn with hdots | ⟨stem', hstem', hnstem⟩
  · exact absurd (h.trans hdots) hfile
  have hstems : stem = stem' := by
    rw [hstem, hstem'] at h
    exact (List.append_inj' h rfl).1
  rw [hmstem, hnstem, hstems, hsame]

theorem slash_not_mem_renameExtension {n extension : Text} (hn : n ≠ (".." : Text))
    (hslash : '/' ∉ n) (hextension : '/' ∉ extension) : '/' ∉ renameExtension extension n := by
  rcases renameExtension_eq extension hn with hdots | ⟨stem, hstem, hname⟩
  · rw [hdots]
    decide
  · have : '/' ∉ stem := fun hmem => hslash (hname ▸ List.mem_append_left _ hmem)
    rw [hstem]
    simp [this, hextension]

theorem isSilent_renameExtension {n extension : Text} (hn : n ≠ (".." : Text))
    (hextension : extension ≠ []) : isSilent (renameExtension extension n) = false := by
  rcases renameExtension_eq extension hn with hdots | ⟨stem, hstem, -⟩
  · rw [hdots]
    decide
  · have hlength : 1 < (stem ++ '.' :: extension).length := by
      have := List.length_pos_iff.2 hextension
      simp only [List.length_append, List.length_cons]
      omega
    rw [hstem]
    cases hsilent : isSilent (stem ++ '.' :: extension) with
    | false => rfl
    | true =>
      unfold isSilent at hsilent
      simp only [Bool.or_eq_true, List.isEmpty_iff, beq_iff_eq] at hsilent
      rcases hsilent with hsilent | hsilent
      · simp at hsilent
      · rw [hsilent] at hlength
        exact absurd hlength (by decide)

theorem components_below {p base : Path} {names : List Text} {n : Text}
    (h : p.components = base.components ++ (names ++ [n]).map .name) :
    p.components = (base.components ++ names.map .name) ++ [.name n] := by
  rw [h, List.map_append, List.append_assoc]
  rfl

/-- The name of a file, as the last component. -/
theorem fileName?_eq_some {p : Path} {n : Text} :
    p.fileName? = some n ↔ ∃ cs, p.components = cs ++ [.name n] := by
  rw [← List.getLast?_eq_some_iff]
  unfold fileName?
  split
  · rename_i name hlast
    rw [hlast]
    simp
  · rename_i hlast
    constructor
    · intro h
      cases h
    · intro h
      exact absurd h (hlast n)

theorem name_ne_dots {p : Path} {n : Text} (h : p.fileName? = some n) : n ≠ (".." : Text) := by
  obtain ⟨cs, hcs⟩ := fileName?_eq_some.1 h
  obtain ⟨-, -, hdots, -⟩ := exists_backward hcs
  exact hdots

theorem slash_not_mem_name {p : Path} {cs : List Component} {n : Text}
    (h : p.components = cs ++ [.name n]) : '/' ∉ n := by
  obtain ⟨before, hbefore, -⟩ := exists_backward h
  apply p.fits_split.slash
  apply (reverse_backward_isPrefix _).subset
  rw [hbefore]
  simp

/-- Another extension changes the last component only. -/
theorem components_withExtension {p : Path} {cs : List Component} {n extension : Text}
    (h : p.components = cs ++ [.name n]) (hslash : '/' ∉ extension) (hne : extension ≠ []) :
    ∃ c, component? (renameExtension extension n) = some c ∧
      (p.withExtension extension).components = cs ++ [c] := by
  obtain ⟨before, hbefore, hdots, hcs⟩ := exists_backward h
  have hloud := isSilent_renameExtension hdots hne
  obtain ⟨c, hc⟩ := exists_component? hloud
  have hfits : Fits p.split.1 (before.reverse ++ [renameExtension extension n]) := by
    have hall := p.fits_split.of_isPrefix (reverse_backward_isPrefix p.split.2)
    rw [hbefore, List.reverse_cons] at hall
    exact hall.replaceLast
      (slash_not_mem_renameExtension hdots (slash_not_mem_name h) hslash) hloud
  have hrenamed : p.withExtension extension =
      ofSegments p.split.1 (before.reverse ++ [renameExtension extension n]) := by
    unfold withExtension
    simp only [hbefore]
    rw [if_neg hdots, List.reverse_cons]
  refine ⟨c, hc, ?_⟩
  rw [hrenamed, components_ofSegments hfits, List.filterMap_append, ← List.append_assoc, ← hcs,
    List.filterMap_cons_some hc]
  rfl

/-- A single segment is a path of one component. -/
theorem components_of_segment {t : Text} {c : Component} (hslash : '/' ∉ t)
    (hc : component? t = some c) :
    (⟨t⟩ : Path).split.1 = .relative ∧ (⟨t⟩ : Path).components = [c] := by
  have hsplit := Text.splitOn_of_not_mem hslash
  have h := split_of_splits (.relative hsplit (isSilent_of_component? hc))
  refine ⟨by rw [h], ?_⟩
  rw [components, h]
  simp [Anchor.components, hc]

/-- A name is a path of one component. -/
theorem components_of_isName {n : Text} (h : isName n = true) :
    (⟨n⟩ : Path).split.1 = .relative ∧ (⟨n⟩ : Path).components = [.name n] := by
  simp only [isName, Bool.and_eq_true, Bool.not_eq_true', bne_iff_ne, List.contains_eq_mem,
    decide_eq_false_iff_not] at h
  obtain ⟨⟨hloud, hdots⟩, hslash⟩ := h
  have hcomponent : component? n = some (.name n) := by
    rw [component?, if_neg (by simp [hloud]), if_neg hdots]
  exact components_of_segment hslash hcomponent

theorem components_descend {names : List Text} (h : ∀ n ∈ names, isName n = true) (root : Path) :
    (root.descend names).components = root.components ++ names.map .name := by
  induction names generalizing root with
  | nil => simp [descend]
  | cons n names ih =>
    obtain ⟨hstart, hcomponents⟩ := components_of_isName (h n List.mem_cons_self)
    have hrest := ih (fun m hm => h m (List.mem_cons_of_mem n hm)) (root.join ⟨n⟩)
    rw [components_join root hstart, hcomponents, List.append_assoc, List.singleton_append] at hrest
    exact hrest

end Path

namespace Files

open Wxml.Path (component?)

variable {files : Files} {p : Path} {location : Location}

/-! ### Places -/

theorem startAt_eq_foldl (files : Files) (anchor : Path.Anchor) :
    files.startAt anchor = anchor.components.foldl enter files.here := by
  cases anchor with
  | relative => rfl
  | current => rfl
  | absolute => rfl

theorem place_eq_foldl (files : Files) (p : Path) :
    files.place p = p.components.foldl enter files.here := by
  rw [place, Path.components, List.foldl_append, ← startAt_eq_foldl, List.foldl_filterMap]
  congr 1
  funext l segment
  unfold component?
  by_cases hsilent : Path.isSilent segment = true
  · simp only [if_pos hsilent]
  · simp only [if_neg hsilent]
    by_cases hup : segment = (".." : Text)
    · simp only [if_pos hup]
      rfl
    · simp only [if_neg hup]
      rfl

theorem place_of_components (files : Files) {cs : List Path.Component} {n : Text}
    (h : p.components = cs ++ [.name n]) :
    files.place p = cs.foldl enter files.here ++ [n] := by
  rw [place_eq_foldl, h, List.foldl_append]
  rfl

theorem foldl_enter_names (l : Location) (names : List Text) :
    (names.map Path.Component.name).foldl enter l = l ++ names := by
  induction names generalizing l with
  | nil => rw [List.append_nil]; rfl
  | cons n names ih =>
    rw [List.map_cons, List.foldl_cons, ih]
    simp [enter]

/-- From a path, names lead down. -/
theorem place_descend (files : Files) (root : Path) {names : List Text}
    (h : ∀ n ∈ names, Path.isName n = true) :
    files.place (root.descend names) = files.place root ++ names := by
  rw [place_eq_foldl, Path.components_descend h, List.foldl_append, foldl_enter_names,
    place_eq_foldl]

theorem follow_eq_foldl {segments : List Text} {start : Location}
    (h : files.follow start segments = .ok location) :
    location = (segments.filterMap component?).foldl enter start := by
  induction segments generalizing start with
  | nil =>
    cases h
    rfl
  | cons segment segments ih =>
    obtain ⟨-, -, hrest⟩ := follow_cons_eq_ok.1 h
    rw [ih hrest]
    cases hc : component? segment with
    | none => rw [List.filterMap_cons_none hc, Option.elim_none]
    | some c => rw [List.filterMap_cons_some hc, Option.elim_some, List.foldl_cons]

/-- A path leads, if anywhere, to the place that it names. -/
theorem place_of_locate (h : files.locate p = .ok location) : files.place p = location := by
  rw [follow_eq_foldl (locate_eq_ok_iff.1 h).2, place_eq_foldl, Path.components,
    List.foldl_append, startAt_eq_foldl]

/-! ### Directories above -/

/-- A directory with directories all the way up. -/
def Rooted (files : Files) (location : Location) : Prop :=
  ∀ {l}, l <+: location → files.get? l = some .directory

theorem rooted_startAt (files : Files) (anchor : Path.Anchor) :
    files.Rooted (files.startAt anchor) := by
  intro l hl
  have hhere : l <+: files.here := by
    cases anchor with
    | relative => exact hl
    | current => exact hl
    | absolute => exact List.prefix_nil.1 hl ▸ List.nil_prefix
  exact get?_of_isGiven (List.isPrefixOf_iff_prefix.2 hhere)

theorem rooted_nil (files : Files) : files.Rooted [] := files.rooted_startAt .absolute

theorem Rooted.dropLast (h : files.Rooted location) : files.Rooted location.dropLast :=
  fun hl => h (hl.trans (List.dropLast_prefix location))

theorem Rooted.append {name : Text} (h : files.Rooted location)
    (hget : files.get? (location ++ [name]) = some .directory) :
    files.Rooted (location ++ [name]) := by
  intro l hl
  rcases List.prefix_concat_iff.1 hl with rfl | hl
  · exact hget
  · exact h hl

/-- What segments lead to is a directory, unless the last component is a name. -/
theorem rooted_of_follow {segments : List Text} {start : Location} (hstart : files.Rooted start)
    (h : files.follow start segments = .ok location) :
    files.Rooted location ∨ ∃ cs n, segments.filterMap component? = cs ++ [.name n] := by
  induction segments generalizing start with
  | nil =>
    cases h
    exact .inl hstart
  | cons segment segments ih =>
    obtain ⟨-, -, hrest⟩ := follow_cons_eq_ok.1 h
    cases hc : component? segment with
    | none =>
      rw [List.filterMap_cons_none hc]
      rw [hc] at hrest
      exact ih hstart hrest
    | some c =>
      rw [List.filterMap_cons_some hc]
      rw [hc] at hrest
      have hmore : files.Rooted (enter start c) →
          files.Rooted location ∨ ∃ cs n, c :: segments.filterMap component? = cs ++ [.name n] := by
        intro hnext
        rcases ih hnext hrest with hrooted | ⟨cs, n, hcs⟩
        · exact .inl hrooted
        · exact .inr ⟨c :: cs, n, by rw [hcs]; rfl⟩
      cases c with
      | root => exact hmore files.rooted_nil
      | current => exact hmore hstart
      | parent => exact hmore hstart.dropLast
      | name n =>
        -- more can only follow where the name is that of a directory
        cases segments with
        | nil => exact .inr ⟨[], n, rfl⟩
        | cons next segments =>
          obtain ⟨hget, -⟩ := follow_cons_eq_ok.1 hrest
          exact hmore (hstart.append hget)

/-- A path without a file name leads to a directory. -/
theorem directory_of_locate (h : files.locate p = .ok location) (hname : p.fileName? = none) :
    files.get? location = some .directory := by
  rcases rooted_of_follow (files.rooted_startAt _) (locate_eq_ok_iff.1 h).2 with
    hrooted | ⟨cs, n, hcs⟩
  · exact hrooted (List.prefix_refl location)
  · have hsome : p.fileName? = some n := by
      refine Path.fileName?_eq_some.2 ⟨p.split.1.components ++ cs, ?_⟩
      rw [Path.components, hcs, List.append_assoc]
    rw [hname] at hsome
    cases hsome

end Files

end Wxml
