import Mathlib.Data.List.Nodup
import Wxml.Proofs.Idempotence
import Wxml.Proofs.TextLines

/-!
# Values and the quotes around them

A value is written between quotes that it does not contain, unless it contains both kinds
(`Property.quote`).  No attribute that is read has such a value, but a property can get one: a
static class or style and its bound form become one value (`Property.merge?`), and each of the two
may bring its own kind of quote.

* `Property.AllHold` ties the quotes of the properties to those of what was added; `AllHold.add` is
  the step and `AllHold.addEach` the run.
* `Directive.exists_attribute_of_mem_sets` says that no single property brings both kinds.
* `Properties.quote_mem_value_iff` is the result: the quotes around a value fail exactly if the
  value is a static class or style with a quote of one kind and a bound one with a quote of the
  other.
-/

namespace Wxml

open Rendering (Fault)

/-! ### Characters of values -/

/-- Whether there is a value that contains the character. -/
def HasChar (c : Char) (value : Option Text) : Prop := ∃ v ∈ value, c ∈ v

@[simp] theorem hasChar_none (c : Char) : ¬ HasChar c none := by simp [HasChar]

@[simp] theorem hasChar_some (c : Char) (v : Text) : HasChar c (some v) ↔ c ∈ v := by
  simp [HasChar]

theorem hasChar_getD {c : Char} {value : Option Text} : c ∈ value.getD [] ↔ HasChar c value := by
  cases value <;> simp

namespace Cursor

theorem isQuote_iff {c : Char} : isQuote c = true ↔ c = '"' ∨ c = '\'' := by
  simp [isQuote]

end Cursor

theorem mem_interpolate {c : Char} (hc : Cursor.isQuote c = true) (v : Text) :
    c ∈ interpolate v ↔ c ∈ v := by
  obtain rfl | rfl := Cursor.isQuote_iff.1 hc <;> simp [interpolate]

namespace Text

theorem mem_dropWhile {p : Char → Bool} {c : Char} (hc : p c = false) (t : Text) :
    c ∈ t.dropWhile p ↔ c ∈ t := by
  refine ⟨fun h => (List.dropWhile_sublist p).subset h, fun h => ?_⟩
  rw [← List.takeWhile_append_dropWhile (p := p) (l := t)] at h
  cases List.mem_append.1 h with
  | inl first =>
    have htrue := List.all_eq_true.1 List.all_takeWhile c first
    rw [hc] at htrue
    cases htrue
  | inr rest => exact rest

theorem mem_dropEndWhile {p : Char → Bool} {c : Char} (hc : p c = false) (t : Text) :
    c ∈ dropEndWhile p t ↔ c ∈ t := by
  rw [dropEndWhile, List.mem_reverse, mem_dropWhile hc, List.mem_reverse]

end Text

namespace Property

theorem quote_mem_iff (v : Text) : quote v ∈ v ↔ '"' ∈ v ∧ '\'' ∈ v := by
  by_cases h : '"' ∈ v <;> simp [quote, h]

/-! ### Adding properties -/

theorem mem_staticPart {c : Char} (hc : Cursor.isQuote c = true) (name v : Text) :
    c ∈ staticPart name v ↔ c ∈ v := by
  have hsemicolon : (fun d : Char => d == ';') c = false := by
    obtain rfl | rfl := Cursor.isQuote_iff.1 hc <;> rfl
  have hblank : isBlank c = false := by
    obtain rfl | rfl := Cursor.isQuote_iff.1 hc <;> rfl
  unfold staticPart
  split
  · rw [Text.mem_dropEndWhile (p := (· == ';')) hsemicolon, Text.trimEnd,
      Text.mem_dropEndWhile hblank]
  · rfl

theorem not_mem_separator {c : Char} (hc : Cursor.isQuote c = true) {name separator : Text}
    (h : separator? name = some separator) : c ∉ separator := by
  unfold separator? at h
  split_ifs at h
  all_goals
    cases h
    obtain rfl | rfl := Cursor.isQuote_iff.1 hc <;> decide

/-- Two properties as one have the quotes of both. -/
theorem hasChar_merge {p q m : Property} (h : p.merge? q = some m) {c : Char}
    (hc : Cursor.isQuote c = true) :
    HasChar c m.value ↔ HasChar c p.value ∨ HasChar c q.value := by
  unfold merge? at h
  split at h
  · rename_i separator v w hseparator hv hw
    have hfree := not_mem_separator hc hseparator
    rw [hv, hw]
    split_ifs at h
    · cases h
      simp [mem_staticPart hc, hfree, or_comm]
    · cases h
      simp [mem_staticPart hc, hfree]
  · cases h

/-- The quotes of each property in `ps` are those of the ones of its name among all that were added
so far. -/
def AllHold (earlier ps : List Property) : Prop :=
  ∀ p ∈ ps, ∀ c, Cursor.isQuote c = true →
    (HasChar c p.value ↔ ∃ e ∈ earlier, e.name = p.name ∧ HasChar c e.value)

/-- Adding one more property. -/
theorem AllHold.add {earlier ps ps' : List Property} {q : Property} (h : AllHold earlier ps)
    (hcollected : Collected earlier ps) (hadd : add? q ps = some ps') :
    AllHold (earlier ++ [q]) ps' := by
  intro r hr c hc
  obtain ⟨hnew, rfl⟩ | ⟨before, p, after, m, rfl, hname, hm, rfl⟩ := add?_eq_some hadd
  · have hfresh : ∀ e ∈ earlier, e.name ≠ q.name := by
      intro e he hq
      obtain ⟨p, hp, hpe⟩ := hcollected.covers e he
      exact hnew p hp (hpe.trans hq)
    cases List.mem_append.1 hr with
    | inl old =>
      have hne : q.name ≠ r.name := (hnew r old).symm
      rw [h r old c hc]
      simp [or_and_right, exists_or, hne]
    | inr new =>
      obtain rfl := List.mem_singleton.1 new
      grind
  · have mem : p ∈ before ++ p :: after := by simp
    by_cases hrm : r = m
    · subst hrm
      obtain ⟨hmname, -, -⟩ := merge?_eq_some hm
      rw [hasChar_merge hm hc, h p mem c hc, hmname]
      simp [or_and_right, exists_or, hname]
    · obtain ⟨old, hne⟩ := hcollected.others (by simpa [hrm] using hr)
      rw [h r old c hc]
      simp [or_and_right, exists_or, ← hname, hne.symm]

/-- Adding some properties one after another. -/
theorem AllHold.addEach {qs earlier ps ps' : List Property} (h : AllHold earlier ps)
    (hcollected : Collected earlier ps)
    (hadd : qs.foldlM (fun list q => add? q list) ps = some ps') : AllHold (earlier ++ qs) ps' := by
  induction qs generalizing earlier ps with
  | nil =>
    cases hadd
    simpa using h
  | cons q qs ih =>
    obtain ⟨next, hnext, hrest⟩ := Option.bind_eq_some_iff.1 hadd
    simpa using ih (h.add hcollected hnext) (hcollected.add hnext) hrest

end Property

namespace Properties

theorem foldlM_of_insertAll {d : Directive} {qs : List Property} {ps ps' : Properties}
    (h : insertAll d qs ps = .ok ps') :
    qs.foldlM (fun list q => Property.add? q list) ps.list = some ps'.list := by
  induction qs generalizing ps with
  | nil =>
    cases h
    rfl
  | cons q qs ih =>
    rw [insertAll, insert] at h
    cases hadd : Property.add? q ps.list with
    | none => simp [hadd] at h
    | some list =>
      rw [List.foldlM_cons, hadd]
      exact ih (by simpa [hadd] using h)

/-- The properties of some attributes are what their directives set, added one after another. -/
theorem foldlM_of_addAll {loop : Option (Except Fault Loop)} {as : List Attribute}
    {ps ps' : Properties} (h : addAll loop as ps = .ok ps') :
    ((as.map (Directive.ofAttributeIn loop.isSome)).flatMap (·.sets loop)).foldlM
      (fun list q => Property.add? q list) ps.list = some ps'.list := by
  induction as generalizing ps with
  | nil =>
    cases h
    rfl
  | cons a as ih =>
    simp only [addAll, Directive.convert_eq] at h
    rw [List.map_cons, List.flatMap_cons, List.foldlM_append]
    generalize Directive.ofAttributeIn loop.isSome a = d at h ⊢
    cases hrefusals : (d.refusals loop).head? with
    | some fault => simp [hrefusals] at h
    | none =>
      simp only [hrefusals] at h
      cases hinsert : insertAll d (d.sets loop) (d.putContent ps) with
      | error fault => simp [hinsert] at h
      | ok next =>
        simp only [hinsert] at h
        have hfirst := foldlM_of_insertAll hinsert
        rw [d.putContent_list] at hfirst
        rw [hfirst]
        exact ih h

theorem allHold_of_ofAttributes {e : Element} {ps : Properties}
    (h : ofAttributes e.attributes = .ok ps) :
    Property.AllHold (e.directives.flatMap (·.sets e.loop?)) ps.list := by
  have hempty : Property.AllHold [] Properties.empty.list := by
    intro p hp
    cases hp
  have hall : addAll e.loop? e.attributes Properties.empty = .ok ps := h
  exact hempty.addEach .nil (foldlM_of_addAll hall)

end Properties

/-! ### Where the quotes come from -/

namespace Loop

/-- A loop is made of characters of its head. -/
theorem subset_of_parse? {t : Text} {l : Loop} (h : parse? t = some l) :
    l.item ⊆ t ∧ (∀ i ∈ l.index, i ⊆ t) ∧ l.source ⊆ t := by
  obtain ⟨m, hfind, rfl⟩ := Option.map_eq_some_iff.1 h
  have hsome : ∀ n w, m.groups.lookup n = some w → w ⊆ t := by
    intro n w hw
    obtain ⟨before, after, hgroups, -⟩ := List.lookup_eq_some_iff.1 hw
    exact Pattern.groups_subset_of_find? hfind (n, w) (by simp [hgroups])
  have hget : ∀ n, (m.groups.lookup n).getD [] ⊆ t := by
    intro n
    cases hw : m.groups.lookup n with
    | none => exact List.nil_subset t
    | some w => exact hsome n w hw
  unfold ofGroups
  split
  · rename_i item hitem
    exact ⟨hsome 3 item hitem, by simp, hget 4⟩
  · exact ⟨hget 1, fun i hi => hsome 2 i hi, hget 4⟩

end Loop

namespace Directive

theorem ofAttributeIn_value (hasLoop : Bool) (a : Attribute) :
    (ofAttributeIn hasLoop a).value = a.value := by
  unfold ofAttributeIn
  simp only
  split <;> rfl

theorem hasChar_binding {c : Char} (hc : Cursor.isQuote c = true) {name : Text}
    {value : Option Text} :
    HasChar c (binding name (value.getD [])).value ↔ HasChar c value := by
  rw [binding, hasChar_some, mem_interpolate hc, hasChar_getD]

/-- A key brings no quotes of its own. -/
theorem mem_of_keyName? {item e name : Text} (h : keyName? item e = some name) {c : Char}
    (hc : Cursor.isQuote c = true) (hmem : c ∈ name) : c ∈ e := by
  unfold keyName? at h
  split at h
  · cases h
    refine absurd hmem ?_
    obtain rfl | rfl := Cursor.isQuote_iff.1 hc <;> decide
  · split at h
    · rename_i property hafter
      split at h
      · cases h
        rw [Text.after?_eq_some_iff.1 hafter]
        exact List.mem_append_right _ hmem
      · cases h
    · cases h

/-- The quotes in a property that a directive sets all come from one attribute. -/
theorem exists_attribute_of_mem_sets {e : Element} {d : Directive} (hd : d ∈ e.directives)
    {q : Property} (hq : q ∈ d.sets e.loop?) :
    ∃ a ∈ e.attributes, ∀ c, Cursor.isQuote c = true → HasChar c q.value → HasChar c a.value := by
  obtain ⟨a, ha, rfl⟩ := List.mem_map.1 hd
  have hvalue := ofAttributeIn_value e.loop?.isSome a
  generalize ofAttributeIn e.loop?.isSome a = d at *
  unfold sets at hq
  cases hkind : d.kind with
  | bind | when | elseWhen =>
    simp only [hkind, List.mem_singleton] at hq
    subst hq
    refine ⟨a, ha, fun c hc h => ?_⟩
    rwa [hasChar_binding hc, hvalue] at h
  | on =>
    simp only [hkind, List.mem_singleton] at hq
    subst hq
    refine ⟨a, ha, fun c hc h => ?_⟩
    rw [fixed, hasChar_some, hasChar_getD] at h
    rwa [← hvalue]
  | otherwise =>
    simp only [hkind, List.mem_singleton] at hq
    subst hq
    exact ⟨a, ha, fun c hc h => absurd h (hasChar_none c)⟩
  | loop =>
    rcases hloop : e.loop? with _ | fault | l
    · simp [hkind, hloop] at hq
    · simp [hkind, hloop] at hq
    · obtain ⟨b, hb, -, hparsed⟩ := Element.exists_of_loop? hloop
      obtain ⟨hitem, hindex, hsource⟩ :=
        Loop.subset_of_parse? ((Rendering.loop_eq_ok_iff _ _ l).1 hparsed.symm).1
      refine ⟨b, hb, fun c hc h => hasChar_getD.1 ?_⟩
      simp only [hkind, hloop, List.mem_append, List.mem_cons, List.not_mem_nil, or_false,
        Option.mem_toList, Option.map_eq_some_iff] at hq
      obtain (rfl | rfl) | ⟨index, hmem, rfl⟩ := hq
      · rw [binding, hasChar_some, mem_interpolate hc] at h
        exact hsource h
      · rw [fixed, hasChar_some] at h
        exact hitem h
      · rw [fixed, hasChar_some] at h
        exact hindex index hmem h
  | key =>
    rcases hloop : e.loop? with _ | fault | l
    · simp [hkind, hloop] at hq
    · simp [hkind, hloop] at hq
    · simp only [hkind, hloop, Option.mem_toList, Option.map_eq_some_iff] at hq
      obtain ⟨name, hname, rfl⟩ := hq
      refine ⟨a, ha, fun c hc h => ?_⟩
      rw [fixed, hasChar_some] at h
      have hmem := mem_of_keyName? hname hc h
      rw [← hvalue, ← hasChar_getD]
      have hblank : isBlank c = false := by
        obtain rfl | rfl := Cursor.isQuote_iff.1 hc <;> rfl
      rwa [Text.trim, Text.trimEnd, Text.mem_dropEndWhile hblank, Text.trimStart,
        Text.mem_dropWhile hblank] at hmem
  | literal =>
    simp only [hkind, List.mem_singleton] at hq
    subst hq
    exact ⟨a, ha, fun c hc h => hvalue ▸ h⟩
  | text | html | unsupported => simp [hkind] at hq

/-- A name that a property has only from an attribute of that name or from a binding of it: no
other directive sets it, and both keys are taken as they stand. -/
structure IsOwnName (name : Text) : Prop where
  literal : IsLiteral name
  static : isStaticName name = true
  undotted : '.' ∉ name
  ne_key : name ≠ ("key" : Text)
  uncontrolled : name ∉ controlNames
  unmarked : ∀ stop capture, ¬ (⟨stop, capture⟩ : Listening).mark <+: name

instance : DecidablePred IsOwnName := fun name =>
  decidable_of_iff
    (IsLiteral name ∧ isStaticName name = true ∧ '.' ∉ name ∧ name ≠ ("key" : Text) ∧
      controlNames.contains name = false ∧
      ∀ stop capture, ¬ (⟨stop, capture⟩ : Listening).mark <+: name)
    ⟨fun ⟨literal, static, undotted, ne_key, uncontrolled, unmarked⟩ =>
        ⟨literal, static, undotted, ne_key, by simpa using uncontrolled, unmarked⟩,
      fun h => ⟨h.literal, h.static, h.undotted, h.ne_key, by simpa using h.uncontrolled,
        h.unmarked⟩⟩

theorem isOwnName_of_merged {name : Text} (h : name = ("class" : Text) ∨ name = ("style" : Text)) :
    IsOwnName name := by
  obtain rfl | rfl := h <;> decide

/-- A property of such a name is set by an attribute of that name or by a binding. -/
theorem mem_sets_own {loop : Option (Except Fault Loop)} {d : Directive} {q : Property}
    (hq : q ∈ d.sets loop) (hown : IsOwnName q.name) :
    d.kind = .literal ∧ q = ⟨d.key, d.value, false⟩ ∨
      d.kind = .bind ∧ q = binding d.name (d.value.getD []) := by
  have hcontrol := hown.uncontrolled
  unfold sets at hq
  cases hkind : d.kind with
  | bind => exact .inr ⟨rfl, by simpa [hkind] using hq⟩
  | literal => exact .inl ⟨rfl, by simpa [hkind] using hq⟩
  | on =>
    simp only [hkind, List.mem_singleton] at hq
    exact absurd ⟨_, by rw [hq, fixed]⟩ (hown.unmarked _ _)
  | when | elseWhen | otherwise =>
    simp only [hkind, List.mem_singleton] at hq
    exact absurd (by simp [hq, binding, controlNames]) hcontrol
  | loop =>
    rcases loop with _ | fault | head
    · simp [hkind] at hq
    · simp [hkind] at hq
    · simp only [hkind, List.mem_append, List.mem_cons, List.not_mem_nil, or_false,
        Option.mem_toList, Option.map_eq_some_iff] at hq
      obtain (rfl | rfl) | ⟨index, -, rfl⟩ := hq
      all_goals exact absurd (by simp [binding, fixed, controlNames]) hcontrol
  | key =>
    rcases loop with _ | fault | head
    · simp [hkind] at hq
    · simp [hkind] at hq
    · simp only [hkind, Option.mem_toList, Option.map_eq_some_iff] at hq
      obtain ⟨name, -, rfl⟩ := hq
      exact absurd (by simp [fixed, controlNames]) hcontrol
  | text | html | unsupported => simp [hkind] at hq

theorem mem_sets_merged {loop : Option (Except Fault Loop)} {d : Directive} {q : Property}
    (hq : q ∈ d.sets loop) (hname : q.name = ("class" : Text) ∨ q.name = ("style" : Text)) :
    d.kind = .literal ∧ q = ⟨d.key, d.value, false⟩ ∨
      d.kind = .bind ∧ q = binding d.name (d.value.getD []) :=
  mem_sets_own hq (isOwnName_of_merged hname)

/-- The two ways to write a binding. -/
def IsBindingOf (name key : Text) : Prop := key = ':' :: name ∨ key = "v-bind:" ++ name

theorem isBindingOf_of_classify {key rest : Text} (h : classify key = (.bind, rest)) :
    IsBindingOf rest key := by
  unfold classify at h
  split at h
  · cases h
    exact .inl rfl
  · cases h
  · cases h
  · rename_i directive
    unfold classifyLong at h
    simp only at h
    split at h
    · split at h
      · rename_i argument hdrop
        obtain ⟨hkind, rfl⟩ := Prod.mk.inj h
        have hbind : directive.takeWhile (!endsName ·) = ("bind" : Text) := by
          by_contra hne
          rw [if_neg hne] at hkind
          cases hkind
        have hwhole := List.takeWhile_append_dropWhile (p := (!endsName ·)) (l := directive)
        rw [hbind, hdrop] at hwhole
        exact .inr (by rw [← hwhole]; rfl)
      · cases h
    · split at h
      · cases h
      · exact absurd (Prod.mk.inj h).1 (kindOfName_ne_bind _)
  · cases h

theorem eq_of_splitModifiers {t name : Text} (h : splitModifiers t = (name, [])) : t = name := by
  unfold splitModifiers at h
  split at h
  · cases h
    rfl
  · split at h
    · rename_i hsplit
      exact absurd hsplit (Text.splitOn_ne_nil '.' t)
    · rename_i first modifiers hsplit
      cases h
      simpa [hsplit, Text.join] using (Text.join_splitOn '.' t).symm

/-- The key of a binding without modifiers. -/
theorem isBindingOf_of_kind {a : Attribute} (hkind : (ofAttribute a).kind = .bind)
    (hmodifiers : (ofAttribute a).modifiers = []) : IsBindingOf (ofAttribute a).name a.key := by
  unfold ofAttribute at hkind hmodifiers ⊢
  cases hclass : classify a.key with
  | mk kind rest =>
    simp only [hclass] at hkind hmodifiers ⊢
    have hbind : kind = .bind := by
      split at hkind
      all_goals
        split at hkind
        · cases hkind
        · exact hkind
    subst hbind
    have hsplit : splitModifiers rest = ((splitModifiers rest).1, []) := Prod.ext rfl hmodifiers
    have hrest := isBindingOf_of_classify hclass
    rw [eq_of_splitModifiers hsplit] at hrest
    exact hrest

theorem ofAttributeIn_static (hasLoop : Bool) {a : Attribute} (hown : IsOwnName a.key) :
    (ofAttributeIn hasLoop a).kind = .literal := by
  have hkind : (classify a.key).1 = .literal := hown.literal
  simp [ofAttributeIn, ofAttribute, hkind]

theorem classify_of_isBindingOf {name key : Text} (h : IsBindingOf name key) :
    classify key = (.bind, name) := by
  obtain rfl | rfl := h <;> rfl

theorem ofAttributeIn_bound (hasLoop : Bool) {a : Attribute} {name : Text}
    (hown : IsOwnName name) (hkey : IsBindingOf name a.key) :
    (ofAttributeIn hasLoop a).kind = .bind ∧ (ofAttributeIn hasLoop a).name = name := by
  have hbracket : name.head? ≠ some '[' := by
    have hstatic := hown.static
    simp only [isStaticName, Bool.and_eq_true, bne_iff_ne] at hstatic
    exact hstatic.2
  have hsplit : splitModifiers name = (name, []) := by
    rw [splitModifiers, if_neg hbracket, Text.splitOn_of_not_mem hown.undotted]
  have hdirective : ofAttribute a = ⟨a.key, .bind, name, [], a.value, a.span⟩ := by
    simp [ofAttribute, classify_of_isBindingOf hkey, hsplit, hown.static]
  have hloopless : ofAttributeIn hasLoop a = ofAttribute a := by
    rw [ofAttributeIn, hdirective]
    exact if_neg (by simp only [decide_eq_false hown.ne_key]; simp)
  rw [hloopless, hdirective]
  exact ⟨rfl, rfl⟩

end Directive

/-! ### Where quotes meet -/

namespace Property

/-- Two properties of one element: if they have one name, they are the static and the bound form of
a class or a style. -/
def Compatible (p q : Property) : Prop :=
  p.name = q.name → (p.name = ("class" : Text) ∨ p.name = ("style" : Text)) ∧
    ¬ (p.bound = true ∧ q.bound = true)

theorem Compatible.symm {p q : Property} (h : Compatible p q) : Compatible q p := by
  intro hname
  obtain ⟨hmerges, hbound⟩ := h hname.symm
  exact ⟨hname ▸ hmerges, fun hboth => hbound hboth.symm⟩

instance : Std.Symm Compatible := ⟨fun _ _ h => h.symm⟩

theorem Fits.compatible {earlier : List Property} {q : Property} (h : Fits earlier q) :
    ∀ p ∈ earlier, Compatible p q := by
  intro p hp hname
  obtain hnew | ⟨hmerges, -, -, hbound⟩ := h
  · exact absurd hname (hnew p hp)
  · refine ⟨hname ▸ hmerges, ?_⟩
    rintro ⟨hpbound, hqbound⟩
    rw [hbound.1 hqbound p hp hname] at hpbound
    cases hpbound

theorem AllFit.compatible {earlier qs : List Property} (h : AllFit earlier qs) :
    (∀ p ∈ earlier, ∀ q ∈ qs, Compatible p q) ∧ qs.Pairwise Compatible := by
  induction qs generalizing earlier with
  | nil => simp
  | cons r qs ih =>
    obtain ⟨hlater, hpairs⟩ := ih h.2
    refine ⟨fun p hp q hq => ?_, List.pairwise_cons.2 ⟨fun q hq => ?_, hpairs⟩⟩
    · cases List.mem_cons.1 hq with
      | inl same => exact same ▸ h.1.compatible p hp
      | inr later => exact hlater p (List.mem_append_left _ hp) q later
    · exact hlater r (by simp) q hq

end Property

namespace Properties

open Directive (IsBindingOf)

/-- A property of such a name comes from the attribute of that name or from a binding of it. -/
theorem exists_attribute_of_own {e : Element}
    (hrefusals : ∀ d ∈ e.directives, d.refusals e.loop? = []) {q : Property}
    (hq : q ∈ e.directives.flatMap (·.sets e.loop?))
    (hown : Directive.IsOwnName q.name) :
    (∃ a ∈ e.attributes, a.key = q.name ∧ q = ⟨q.name, a.value, false⟩) ∨
      ∃ a ∈ e.attributes, IsBindingOf q.name a.key ∧
        q = Directive.binding q.name (a.value.getD []) := by
  obtain ⟨d, hd, hqd⟩ := List.mem_flatMap.1 hq
  obtain ⟨a, ha, rfl⟩ := List.mem_map.1 hd
  obtain ⟨hkind, rfl⟩ | ⟨hkind, rfl⟩ := Directive.mem_sets_own hqd hown
  · left
    exact ⟨a, ha, (Directive.ofAttributeIn_key _ a).symm, by rw [Directive.ofAttributeIn_value]⟩
  · right
    have hmodifiers : (Directive.ofAttributeIn e.loop?.isSome a).modifiers = [] := by
      have htranslatable :=
        (Directive.refusals_eq_nil_iff_translatable e.loop? (by simp [hkind])).1 (hrefusals _ hd)
      rw [Directive.Translatable, hkind] at htranslatable
      exact htranslatable.1
    refine ⟨a, ha, ?_, by rw [Directive.ofAttributeIn_value]; rfl⟩
    have hnotKey : (Directive.ofAttributeIn e.loop?.isSome a).kind ≠ .key := by simp [hkind]
    have hplain := Directive.ofAttributeIn_of_ne_key hnotKey
    rw [hplain] at hkind hmodifiers ⊢
    exact Directive.isBindingOf_of_kind hkind hmodifiers

theorem exists_attribute_of_merged {e : Element}
    (hrefusals : ∀ d ∈ e.directives, d.refusals e.loop? = []) {q : Property}
    (hq : q ∈ e.directives.flatMap (·.sets e.loop?))
    (hname : q.name = ("class" : Text) ∨ q.name = ("style" : Text)) :
    (∃ a ∈ e.attributes, a.key = q.name ∧ q = ⟨q.name, a.value, false⟩) ∨
      ∃ a ∈ e.attributes, IsBindingOf q.name a.key ∧
        q = Directive.binding q.name (a.value.getD []) :=
  exists_attribute_of_own hrefusals hq (Directive.isOwnName_of_merged hname)

/-- A class or a style attribute sets a property with its quotes. -/
theorem exists_property_of_static {e : Element} {name : Text} {a : Attribute}
    (hname : name = ("class" : Text) ∨ name = ("style" : Text)) (ha : a ∈ e.attributes)
    (hkey : a.key = name) :
    ∃ q ∈ e.directives.flatMap (·.sets e.loop?), q.name = name ∧
      ∀ c, Cursor.isQuote c = true → (HasChar c q.value ↔ HasChar c a.value) := by
  have hown := Directive.isOwnName_of_merged hname
  have hkind := Directive.ofAttributeIn_static e.loop?.isSome (hkey ▸ hown)
  refine ⟨⟨name, a.value, false⟩, ?_, rfl, fun c _ => Iff.rfl⟩
  refine List.mem_flatMap.2 ⟨_, List.mem_map_of_mem ha, ?_⟩
  simp [Directive.sets, hkind, Directive.ofAttributeIn_value, hkey]

/-- So does a binding of one. -/
theorem exists_property_of_bound {e : Element} {name : Text} {a : Attribute}
    (hname : name = ("class" : Text) ∨ name = ("style" : Text)) (ha : a ∈ e.attributes)
    (hkey : IsBindingOf name a.key) :
    ∃ q ∈ e.directives.flatMap (·.sets e.loop?), q.name = name ∧
      ∀ c, Cursor.isQuote c = true → (HasChar c q.value ↔ HasChar c a.value) := by
  have hown := Directive.isOwnName_of_merged hname
  obtain ⟨hkind, hbound⟩ := Directive.ofAttributeIn_bound e.loop?.isSome hown hkey
  refine ⟨Directive.binding name (a.value.getD []), ?_, rfl,
    fun c hc => Directive.hasChar_binding hc⟩
  refine List.mem_flatMap.2 ⟨_, List.mem_map_of_mem ha, ?_⟩
  simp [Directive.sets, hkind, hbound, Directive.ofAttributeIn_value]

/-- The quotes around a value fail exactly if the value is put together from a static class or style
and its bound form, and these have quotes of different kinds. -/
theorem quote_mem_value_iff {e : Element} {ps : Properties}
    (hkeys : (e.attributes.map Attribute.key).Nodup)
    (hvalues : ∀ a ∈ e.attributes, ¬ (HasChar '"' a.value ∧ HasChar '\'' a.value))
    (h : ofAttributes e.attributes = .ok ps) {p : Property} (hp : p ∈ ps.list) {v : Text}
    (hv : p.value = some v) :
    Property.quote v ∈ v ↔
      (p.name = ("class" : Text) ∨ p.name = ("style" : Text)) ∧
        ∃ a ∈ e.attributes, ∃ b ∈ e.attributes, a.key = p.name ∧ IsBindingOf p.name b.key ∧
          (HasChar '"' a.value ∧ HasChar '\'' b.value ∨
            HasChar '\'' a.value ∧ HasChar '"' b.value) := by
  have hdouble : Cursor.isQuote '"' = true := rfl
  have hsingle : Cursor.isQuote '\'' = true := rfl
  have hholds := allHold_of_ofAttributes h p hp
  obtain ⟨hfaults, -, -⟩ := Rendering.ofAttributes_ok h
  obtain ⟨hrefusals, hfit⟩ := (Directive.allFaults_eq_nil_iff _ _ _).1 hfaults
  rw [Property.quote_mem_iff, ← hasChar_some '"', ← hasChar_some '\'', ← hv, hholds '"' hdouble,
    hholds '\'' hsingle]
  constructor
  · rintro ⟨⟨q, hq, hqname, hqquote⟩, ⟨r, hr, hrname, hrquote⟩⟩
    obtain ⟨d, hd, hqd⟩ := List.mem_flatMap.1 hq
    obtain ⟨d', hd', hrd⟩ := List.mem_flatMap.1 hr
    -- one attribute does not bring both quotes, so these are two properties
    have hne : q ≠ r := by
      rintro rfl
      obtain ⟨a, ha, hquotes⟩ := Directive.exists_attribute_of_mem_sets hd hqd
      exact hvalues a ha ⟨hquotes _ hdouble hqquote, hquotes _ hsingle hrquote⟩
    have hsame : q.name = r.name := hqname.trans hrname.symm
    obtain ⟨hmerges, hbound⟩ := hfit.compatible.2.forall hq hr hne hsame
    refine ⟨hqname ▸ hmerges, ?_⟩
    obtain ⟨a, ha, hakey, hqa⟩ | ⟨a, ha, hakey, hqa⟩ :=
      exists_attribute_of_merged hrefusals hq hmerges
    all_goals
      obtain ⟨b, hb, hbkey, hrb⟩ | ⟨b, hb, hbkey, hrb⟩ :=
        exists_attribute_of_merged hrefusals hr (hsame ▸ hmerges)
    · have hab : a = b := List.inj_on_of_nodup_map hkeys ha hb (by rw [hakey, hbkey, hsame])
      exact absurd (by rw [hqa, hrb, hab, hsame]) hne
    · refine ⟨a, ha, b, hb, hakey.trans hqname, hrname ▸ hbkey, .inl ⟨?_, ?_⟩⟩
      · rwa [hqa] at hqquote
      · rwa [hrb, Directive.hasChar_binding hsingle] at hrquote
    · refine ⟨b, hb, a, ha, hbkey.trans hrname, hqname ▸ hakey, .inr ⟨?_, ?_⟩⟩
      · rwa [hrb] at hrquote
      · rwa [hqa, Directive.hasChar_binding hdouble] at hqquote
    · exact absurd ⟨by rw [hqa]; rfl, by rw [hrb]; rfl⟩ hbound
  · rintro ⟨hmerges, a, ha, b, hb, hakey, hbkey, hquotes⟩
    obtain ⟨q, hq, hqname, hqa⟩ := exists_property_of_static hmerges ha hakey
    obtain ⟨r, hr, hrname, hrb⟩ := exists_property_of_bound hmerges hb hbkey
    obtain ⟨hfirst, hsecond⟩ | ⟨hfirst, hsecond⟩ := hquotes
    · exact ⟨⟨q, hq, hqname, (hqa _ hdouble).2 hfirst⟩, ⟨r, hr, hrname, (hrb _ hsingle).2 hsecond⟩⟩
    · exact ⟨⟨r, hr, hrname, (hrb _ hdouble).2 hsecond⟩, ⟨q, hq, hqname, (hqa _ hsingle).2 hfirst⟩⟩

/-- An element whose class is written with one kind of quote and bound with the other. -/
def twoQuotes : Element :=
  ⟨"div", [⟨"class", some "a\"b", ⟨0, 0⟩⟩, ⟨":class", some "it's", ⟨0, 0⟩⟩], false, ⟨0, 0⟩, ⟨0, 0⟩⟩

theorem twoQuotes_value :
    ofAttributes twoQuotes.attributes =
      .ok ⟨[⟨"class", some "a\"b \x7b\x7bit's\x7d\x7d", true⟩], none⟩ := by
  decide

theorem quote_mem_value_iff_twoQuotes :
    (twoQuotes.attributes.map Attribute.key).Nodup ∧
      (∀ a ∈ twoQuotes.attributes, ¬ (HasChar '"' a.value ∧ HasChar '\'' a.value)) ∧
      (Property.quote "a\"b \x7b\x7bit's\x7d\x7d" ∈ ("a\"b \x7b\x7bit's\x7d\x7d" : Text) ↔
        (("class" : Text) = ("class" : Text) ∨ ("class" : Text) = ("style" : Text)) ∧
          ∃ a ∈ twoQuotes.attributes, ∃ b ∈ twoQuotes.attributes, a.key = ("class" : Text) ∧
            IsBindingOf "class" b.key ∧
              (HasChar '"' a.value ∧ HasChar '\'' b.value ∨
                HasChar '\'' a.value ∧ HasChar '"' b.value)) := by
  have hkeys : (twoQuotes.attributes.map Attribute.key).Nodup := by decide
  have hvalues : ∀ a ∈ twoQuotes.attributes, ¬ (HasChar '"' a.value ∧ HasChar '\'' a.value) := by
    simp [twoQuotes]
  exact ⟨hkeys, hvalues,
    quote_mem_value_iff hkeys hvalues twoQuotes_value (List.mem_singleton.2 rfl) rfl⟩

/-- So attributes without mixed quotes do not always give values that can be quoted. -/
theorem exists_value_with_quote :
    ∃ (e : Element) (ps : Properties),
      (e.attributes.map Attribute.key).Nodup ∧
        (∀ a ∈ e.attributes, ¬ (HasChar '"' a.value ∧ HasChar '\'' a.value)) ∧
        ofAttributes e.attributes = .ok ps ∧
        ∃ p ∈ ps.list, ∃ v ∈ p.value, Property.quote v ∈ v := by
  refine ⟨twoQuotes, _, by decide, by simp [twoQuotes], twoQuotes_value, _,
    List.mem_singleton.2 rfl, _, rfl, by decide⟩

end Properties

end Wxml
