import Wxml.Proofs.Quoting

/-!
# Which attributes the properties come from

`Element.Adds` says which properties an attribute adds, one rule for each kind of directive.  The
properties of an element are these and no others, each of them once; only a static class or style
and its bound form become one (`Element.Accounts`).

The properties are collected one by one, in a list where a later one may change an earlier one
(`Property.add?`).  What the list holds is said without that order:

* `Property.Agrees` says when two properties of one element go together.
  `Element.accepted_iff` says that the checks made one by one come to this.
* `Property.Comes` says where a property of the list comes from; `Comes.add` is the step and
  `Comes.addEach` the run.
-/

namespace Wxml

open Rendering (Fault)

namespace Property

/-! ### Properties that go together -/

/-- Two properties of one element go together: they have different names, or they are the static and
the bound form of a class or a style. -/
def Agrees (p q : Property) : Prop :=
  p.name = q.name → (p.name = ("class" : Text) ∨ p.name = ("style" : Text)) ∧
    p.value.isSome = true ∧ q.value.isSome = true ∧ p.bound ≠ q.bound

theorem Agrees.symm {p q : Property} (h : Agrees p q) : Agrees q p := by
  intro hname
  obtain ⟨hmerges, hp, hq, hbound⟩ := h hname.symm
  exact ⟨hname ▸ hmerges, hq, hp, hbound.symm⟩

instance : Std.Symm Agrees := ⟨fun _ _ h => h.symm⟩

/-- No property goes together with itself. -/
theorem not_agrees_self (p : Property) : ¬ Agrees p p := by
  intro h
  exact (h rfl).2.2.2 rfl

/-- Two static classes or styles never go together, whatever stands between them. -/
def Apart (p q : Property) : Prop :=
  p.name = q.name → (p.name = ("class" : Text) ∨ p.name = ("style" : Text)) →
    p.bound = true ∨ q.bound = true

theorem fits_of_agrees {earlier : List Property} {q : Property}
    (h : ∀ p ∈ earlier, Agrees p q) : Fits earlier q := by
  by_cases hnew : ∀ p ∈ earlier, p.name ≠ q.name
  · exact .inl hnew
  · simp only [not_forall, not_not] at hnew
    obtain ⟨p, hp, hname⟩ := hnew
    obtain ⟨hmerges, -, hq, -⟩ := h p hp hname
    refine .inr ⟨hname ▸ hmerges, hq, fun r hr hrname => (h r hr hrname).2.1, ?_⟩
    constructor
    · intro hbound r hr hrname
      have := (h r hr hrname).2.2.2
      cases hr : r.bound <;> simp_all
    · intro hall
      have hpq := (h p hp hname).2.2.2
      rw [hall p hp hname] at hpq
      cases hq : q.bound <;> simp_all

/-- Properties that go together can be added in their order. -/
theorem allFit_of_agrees {earlier qs : List Property} (h : (earlier ++ qs).Pairwise Agrees) :
    AllFit earlier qs := by
  induction qs generalizing earlier with
  | nil => trivial
  | cons q qs ih =>
    have hsplit := List.pairwise_append.1 h
    refine ⟨fits_of_agrees fun p hp => hsplit.2.2 p hp q (by simp), ih ?_⟩
    simpa using h

theorem agrees_of_fits {earlier : List Property} {q : Property} (h : Fits earlier q)
    (hapart : ∀ p ∈ earlier, Apart p q) : ∀ p ∈ earlier, Agrees p q := by
  intro p hp hname
  obtain hnew | ⟨hmerges, hq, hvalues, hbound⟩ := h
  · exact absurd hname (hnew p hp)
  · refine ⟨hname ▸ hmerges, hvalues p hp hname, hq, ?_⟩
    intro hsame
    obtain hpb | hqb := hapart p hp hname (hname ▸ hmerges)
    · have := hbound.1 (hsame ▸ hpb) p hp hname
      rw [hpb] at this
      cases this
    · have := hbound.1 hqb p hp hname
      rw [hsame, hqb] at this
      cases this

/-- Properties that could be added in their order go together, if no static class or style is given
twice. -/
theorem agrees_of_allFit {earlier qs : List Property} (h : AllFit earlier qs)
    (hearlier : earlier.Pairwise Agrees) (hapart : (earlier ++ qs).Pairwise Apart) :
    (earlier ++ qs).Pairwise Agrees := by
  induction qs generalizing earlier with
  | nil => simpa using hearlier
  | cons q qs ih =>
    have hnext : (earlier ++ [q]).Pairwise Agrees := by
      have hsplit := (List.pairwise_append.1 hapart).2.2
      have hq := agrees_of_fits h.1 fun p hp => hsplit p hp q (by simp)
      rw [List.pairwise_append]
      exact ⟨hearlier, by simp, by simpa using hq⟩
    have := ih h.2 hnext (by simpa using hapart)
    simpa using this

/-! ### Where a property comes from -/

theorem merge?_comm {p q : Property} (h : p.name = q.name) : p.merge? q = q.merge? p := by
  unfold merge?
  rw [h]
  cases separator? q.name with
  | none => rfl
  | some separator => cases p.value <;> cases q.value <;> cases p.bound <;> cases q.bound <;> rfl

/-- Where a property of the list comes from: it was added, and no other of its name; or it was
merged from the two of its name that were. -/
def Comes (added : List Property) (p : Property) : Prop :=
  (p ∈ added ∧ ∀ q ∈ added, q.name = p.name → q = p) ∨
    ∃ s ∈ added, ∃ b ∈ added, s.bound = false ∧ b.bound = true ∧ s.name = p.name ∧
      b.name = p.name ∧ s.merge? b = some p ∧ ∀ q ∈ added, q.name = p.name → q = s ∨ q = b

namespace Comes

variable {earlier : List Property} {p q : Property}

/-- One property comes of each name. -/
theorem unique (hp : Comes earlier p) (hq : Comes earlier q) (hname : p.name = q.name) :
    p = q := by
  obtain ⟨hpmem, hponly⟩ | ⟨s, hs, b, hb, hsbound, hbbound, hsname, hbname, hmerge, honly⟩ := hp
  · obtain ⟨hqmem, -⟩ | ⟨s, hs, b, hb, hsbound, hbbound, hsname, hbname, -, -⟩ := hq
    · exact (hponly q hqmem hname.symm).symm
    · have hsp := hponly s hs (hsname.trans hname.symm)
      have hbp := hponly b hb (hbname.trans hname.symm)
      rw [hsp, ← hbp, hbbound] at hsbound
      cases hsbound
  · obtain ⟨-, hqonly⟩ | ⟨s', hs', b', hb', hsbound', hbbound', hsname', hbname', hmerge', -⟩ := hq
    · have hsq := hqonly s hs (hsname.trans hname)
      have hbq := hqonly b hb (hbname.trans hname)
      rw [hsq, ← hbq, hbbound] at hsbound
      cases hsbound
    · have hs : s' = s := by
        obtain same | same := honly s' hs' (hsname'.trans hname.symm)
        · exact same
        · rw [same, hbbound] at hsbound'
          cases hsbound'
      have hb : b' = b := by
        obtain same | same := honly b' hb' (hbname'.trans hname.symm)
        · rw [same, hsbound] at hbbound'
          cases hbbound'
        · exact same
      rw [hs, hb, hmerge] at hmerge'
      exact Option.some.inj hmerge'

/-- A property of another name does not matter. -/
theorem extend (h : Comes earlier p) (hne : q.name ≠ p.name) : Comes (earlier ++ [q]) p := by
  obtain ⟨hmem, honly⟩ | ⟨s, hs, b, hb, hsbound, hbbound, hsname, hbname, hmerge, honly⟩ := h
  · refine .inl ⟨by simp [hmem], fun r hr hname => ?_⟩
    cases List.mem_append.1 hr with
    | inl old => exact honly r old hname
    | inr new => exact absurd (List.mem_singleton.1 new ▸ hname) hne
  · refine .inr ⟨s, by simp [hs], b, by simp [hb], hsbound, hbbound, hsname, hbname, hmerge,
      fun r hr hname => ?_⟩
    cases List.mem_append.1 hr with
    | inl old => exact honly r old hname
    | inr new => exact absurd (List.mem_singleton.1 new ▸ hname) hne

/-- A property that goes together with all before it is merged with the only one of its name. -/
theorem merge {m : Property} (h : Comes earlier p) (hagrees : ∀ r ∈ earlier, Agrees r q)
    (hname : p.name = q.name) (hm : p.merge? q = some m) : Comes (earlier ++ [q]) m := by
  obtain ⟨hmname, -, -⟩ := merge?_eq_some hm
  obtain ⟨hmem, honly⟩ | ⟨s, hs, b, hb, hsbound, hbbound, hsname, hbname, -, -⟩ := h
  · have htwo : ∀ r ∈ earlier ++ [q], r.name = m.name → r = p ∨ r = q := by
      intro r hr hrname
      cases List.mem_append.1 hr with
      | inl old => exact .inl (honly r old (hrname.trans hmname))
      | inr new => exact .inr (List.mem_singleton.1 new)
    obtain ⟨-, -, -, hbound⟩ := hagrees p hmem hname
    cases hp : p.bound with
    | false =>
      have hq : q.bound = true := by
        cases hq : q.bound <;> simp_all
      exact .inr ⟨p, by simp [hmem], q, by simp, hp, hq, hmname.symm, by rw [hmname, hname], hm,
        htwo⟩
    | true =>
      have hq : q.bound = false := by
        cases hq : q.bound <;> simp_all
      exact .inr ⟨q, by simp, p, by simp [hmem], hq, hp, by rw [hmname, hname], hmname.symm,
        by rw [← merge?_comm hname, hm], fun r hr hrname => (htwo r hr hrname).symm⟩
  · -- there are two of its name already, one of which is as bound as it is
    have hs' := (hagrees s hs (hsname.trans hname)).2.2.2
    have hb' := (hagrees b hb (hbname.trans hname)).2.2.2
    cases hq : q.bound <;> simp_all

/-- Adding one more property. -/
theorem add {ps ps' : List Property} (h : ∀ r ∈ ps, Comes earlier r)
    (hcollected : Collected earlier ps) (hagrees : ∀ r ∈ earlier, Agrees r q)
    (hadd : add? q ps = some ps') : ∀ r ∈ ps', Comes (earlier ++ [q]) r := by
  intro r hr
  obtain ⟨hnew, rfl⟩ | ⟨before, p, after, m, rfl, hname, hm, rfl⟩ := add?_eq_some hadd
  · cases List.mem_append.1 hr with
    | inl old => exact (h r old).extend (hnew r old).symm
    | inr new =>
      obtain rfl := List.mem_singleton.1 new
      refine .inl ⟨by simp, fun e he hname => ?_⟩
      cases List.mem_append.1 he with
      | inl old =>
        obtain ⟨p, hp, hpe⟩ := hcollected.covers e old
        exact absurd (hpe.trans hname) (hnew p hp)
      | inr new => exact List.mem_singleton.1 new
  · by_cases hrm : r = m
    · subst hrm
      exact (h p (by simp)).merge hagrees hname hm
    · obtain ⟨old, hne⟩ := hcollected.others (by simpa [hrm] using hr)
      exact (h r old).extend (hname ▸ hne.symm)

/-- Adding some properties one after another. -/
theorem addEach {qs ps ps' : List Property} (h : ∀ r ∈ ps, Comes earlier r)
    (hcollected : Collected earlier ps) (hagrees : (earlier ++ qs).Pairwise Agrees)
    (hadd : qs.foldlM (fun list q => add? q list) ps = some ps') :
    ∀ r ∈ ps', Comes (earlier ++ qs) r := by
  induction qs generalizing earlier ps with
  | nil =>
    cases hadd
    simpa using h
  | cons q qs ih =>
    obtain ⟨next, hnext, hrest⟩ := Option.bind_eq_some_iff.1 hadd
    have hfirst : ∀ r ∈ earlier, Agrees r q := fun r hr =>
      (List.pairwise_append.1 hagrees).2.2 r hr q (by simp)
    simpa using ih (Comes.add h hcollected hfirst hnext) (hcollected.add hnext)
      (by simpa using hagrees) hrest

end Comes

end Property

/-! ### What an element sets -/

namespace Directive

/-- The properties of one directive have different names. -/
theorem pairwise_sets (loop : Option (Except Fault Loop)) (d : Directive) :
    (d.sets loop).Pairwise fun p q => p.name ≠ q.name := by
  unfold sets
  cases d.kind with
  | loop =>
    rcases loop with _ | fault | ⟨item, index, source⟩
    · exact .nil
    · exact .nil
    · cases index <;> simp [binding, fixed]
  | key =>
    rcases loop with _ | fault | head
    · exact .nil
    · exact .nil
    · cases hname : keyName? head.item (Text.trim (d.value.getD [])) <;> simp [hname]
  | _ => simp

/-- Two directives with different keys are not both static classes or styles. -/
theorem apart_of_key_ne {loop : Option (Except Fault Loop)} {c d : Directive} (hkey : c.key ≠ d.key)
    {p q : Property} (hp : p ∈ c.sets loop) (hq : q ∈ d.sets loop) : Property.Apart p q := by
  intro hname hmerges
  obtain ⟨-, rfl⟩ | ⟨-, rfl⟩ := mem_sets_merged hp hmerges
  · obtain ⟨-, rfl⟩ | ⟨-, rfl⟩ := mem_sets_merged hq (hname ▸ hmerges)
    · exact absurd hname hkey
    · exact .inr rfl
  · exact .inl rfl

/-- No key by itself is that of a loop. -/
theorem classify_ne_key (key : Text) : (classify key).1 ≠ .key := by
  have hname : ∀ name, kindOfName name ≠ .key := by
    intro name
    unfold kindOfName
    split_ifs <;> decide
  unfold classify
  split
  · simp
  · simp
  · simp
  · rename_i directive
    unfold classifyLong
    simp only
    split
    · split
      · split <;> simp
      · simp
    · split
      · simp
      · exact hname _
  · simp

/-- There are keys of loops only beside loops. -/
theorem hasLoop_of_key {hasLoop : Bool} {a : Attribute}
    (h : (ofAttributeIn hasLoop a).kind = .key) : hasLoop = true := by
  unfold ofAttributeIn at h
  simp only at h
  split at h
  · rename_i hkey
    simp only [Bool.and_eq_true] at hkey
    exact hkey.2
  · exfalso
    unfold ofAttribute at h
    have hne := classify_ne_key a.key
    simp only at h
    split at h
    all_goals
      split at h
      · cases h
      · exact hne h

end Directive

namespace Element

/-- The directive that an attribute of an element is. -/
def directive (e : Element) (a : Attribute) : Directive :=
  Directive.ofAttributeIn e.loop?.isSome a

/-- All properties that the directives of an element set, as they are before any are merged. -/
def added (e : Element) : List Property := e.directives.flatMap (·.sets e.loop?)

theorem mem_added {e : Element} {p : Property} :
    p ∈ e.added ↔ ∃ a ∈ e.attributes, p ∈ (e.directive a).sets e.loop? := by
  simp [added, directives, directive]

theorem pairwise_added {e : Element} {R : Property → Property → Prop} :
    e.added.Pairwise R ↔
      (∀ a ∈ e.attributes, ((e.directive a).sets e.loop?).Pairwise R) ∧
        e.attributes.Pairwise fun a b =>
          ∀ p ∈ (e.directive a).sets e.loop?, ∀ q ∈ (e.directive b).sets e.loop?, R p q := by
  simp [added, directives, directive, List.pairwise_flatMap, List.pairwise_map]

theorem apart_added {e : Element} (hkeys : (e.attributes.map Attribute.key).Nodup) :
    e.added.Pairwise Property.Apart := by
  rw [pairwise_added]
  constructor
  · intro a _
    exact (Directive.pairwise_sets _ _).imp fun hne hname => absurd hname hne
  · rw [List.Nodup, List.pairwise_map] at hkeys
    refine hkeys.imp fun hne p hp q hq => Directive.apart_of_key_ne ?_ hp hq
    simpa [directive] using hne

/-- The attributes of an element have different keys, each of them has a counterpart, and any two of
the properties they set go together. -/
structure Accepted (e : Element) : Prop where
  keys : (e.attributes.map Attribute.key).Nodup
  refusals : ∀ d ∈ e.directives, d.refusals e.loop? = []
  agrees : e.added.Pairwise Property.Agrees

theorem accepted_iff {e : Element} (hkeys : (e.attributes.map Attribute.key).Nodup) :
    e.Accepted ↔ ∃ ps, Properties.ofAttributes e.attributes = .ok ps := by
  have hfit : Property.AllFit [] e.added ↔ e.added.Pairwise Property.Agrees := by
    constructor
    · intro h
      exact Property.agrees_of_allFit h .nil (apart_added hkeys)
    · intro h
      exact Property.allFit_of_agrees h
  have hnone : e.Accepted ↔ Directive.allFaults e.loop? [] e.directives = [] := by
    rw [Directive.allFaults_eq_nil_iff, ← added, hfit]
    exact ⟨fun h => ⟨h.refusals, h.agrees⟩, fun h => ⟨hkeys, h.1, h.2⟩⟩
  have hspec := Rendering.ofAttributes_spec e
  rw [hnone]
  cases h : Properties.ofAttributes e.attributes with
  | error fault =>
    simp only [h] at hspec
    simp only [reduceCtorEq, exists_false, iff_false]
    intro hnone
    simp [hnone] at hspec
  | ok ps =>
    simp only [h] at hspec
    simp [hspec.1]

/-- The properties of an element come from those its directives set. -/
theorem comes_of_ofAttributes {e : Element} {ps : Properties} (haccepted : e.Accepted)
    (h : Properties.ofAttributes e.attributes = .ok ps) :
    ∀ p ∈ ps.list, Property.Comes e.added p := by
  have hall : Properties.addAll e.loop? e.attributes Properties.empty = .ok ps := h
  have hempty : ∀ p ∈ Properties.empty.list, Property.Comes [] p := by
    intro p hp
    cases hp
  exact Property.Comes.addEach hempty .nil haccepted.agrees (Properties.foldlM_of_addAll hall)

/-! ### What an attribute adds -/

open Directive (caught keyName?)

/-- What an attribute of an element adds, by the kind of directive it is.  Nothing is said of
content, and there is no rule for a directive without a counterpart. -/
inductive Adds (e : Element) (a : Attribute) : Property → Prop
  | literal (kind : (e.directive a).kind = .literal) : Adds e a ⟨a.key, a.value, false⟩
  | on {event handler : Text} (kind : (e.directive a).kind = .on)
      (called : Vocabulary.event? (e.directive a).name = some event)
      (given : a.value = some handler) :
      Adds e a ⟨(caught (e.directive a).modifiers).mark ++ event, some handler, false⟩
  | bind {value : Text} (kind : (e.directive a).kind = .bind) (given : a.value = some value) :
      Adds e a ⟨(e.directive a).name, some (interpolate value), true⟩
  | when {value : Text} (kind : (e.directive a).kind = .when) (given : a.value = some value) :
      Adds e a ⟨"wx:if", some (interpolate value), true⟩
  | elseWhen {value : Text} (kind : (e.directive a).kind = .elseWhen)
      (given : a.value = some value) : Adds e a ⟨"wx:elif", some (interpolate value), true⟩
  | otherwise (kind : (e.directive a).kind = .otherwise) : Adds e a ⟨"wx:else", none, false⟩
  | source {l : Loop} (kind : (e.directive a).kind = .loop)
      (clause : Loop.parse? (a.value.getD []) = some l) :
      Adds e a ⟨"wx:for", some (interpolate l.source), true⟩
  | item {l : Loop} (kind : (e.directive a).kind = .loop)
      (clause : Loop.parse? (a.value.getD []) = some l) :
      Adds e a ⟨"wx:for-item", some l.item, false⟩
  | index {l : Loop} {i : Text} (kind : (e.directive a).kind = .loop)
      (clause : Loop.parse? (a.value.getD []) = some l) (given : l.index = some i) :
      Adds e a ⟨"wx:for-index", some i, false⟩
  | key {f : Attribute} {l : Loop} {value name : Text} (kind : (e.directive a).kind = .key)
      (beside : f ∈ e.attributes) (loops : f.key = ("v-for" : Text))
      (clause : Loop.parse? (f.value.getD []) = some l) (given : a.value = some value)
      (called : keyName? l.item (Text.trim value) = some name) :
      Adds e a ⟨"wx:key", some name, false⟩

/-- A static class or style `a` and its bound form `b` as one property, the static part first. -/
inductive Shares (e : Element) (a b : Attribute) : Property → Prop
  | class {static value : Text} (fixed : a.key = ("class" : Text)) (written : a.value = some static)
      (bound : (e.directive b).kind = .bind) (called : (e.directive b).name = ("class" : Text))
      (given : b.value = some value) :
      Shares e a b ⟨"class", some (static ++ " " ++ interpolate value), true⟩
  | style {static value : Text} (fixed : a.key = ("style" : Text)) (written : a.value = some static)
      (bound : (e.directive b).kind = .bind) (called : (e.directive b).name = ("style" : Text))
      (given : b.value = some value) :
      Shares e a b ⟨"style", some (Text.dropEndWhile (· == ';') (Text.trimEnd static) ++ "; " ++
        interpolate value), true⟩

/-- Some properties are what the attributes of an element add, no less, no more and nothing
twice. -/
structure Accounts (e : Element) (ps : List Property) : Prop where
  distinct : (ps.map Property.name).Nodup
  contributes : ∀ a ∈ e.attributes, (e.directive a).kind ≠ .text → ∃ p, e.Adds a p
  carried : ∀ a ∈ e.attributes, ∀ p, e.Adds a p →
    p ∈ ps ∨ ∃ b ∈ e.attributes, ∃ q ∈ ps, q.name = p.name ∧ (e.Shares a b q ∨ e.Shares b a q)
  sourced : ∀ p ∈ ps,
    (∃ a ∈ e.attributes, e.Adds a p ∧
      ∀ c ∈ e.attributes, ∀ q, e.Adds c q → q.name = p.name → c = a) ∨
    ∃ a ∈ e.attributes, ∃ b ∈ e.attributes, e.Shares a b p ∧
      ∀ c ∈ e.attributes, ∀ q, e.Adds c q → q.name = p.name → c = a ∨ c = b

namespace Accepted

variable {e : Element} {a : Attribute}

/-- The loop of an element is that of its attribute `v-for`. -/
theorem loop?_of_key (h : e.Accepted) (ha : a ∈ e.attributes) (hkey : a.key = ("v-for" : Text)) :
    ∃ l, e.loop? = some (.ok l) ∧ Loop.parse? (a.value.getD []) = some l := by
  have hself := Directive.ofAttributeIn_loop e.loop?.isSome hkey
  obtain ⟨-, l, hloop⟩ := (Directive.refusals_loop_eq_nil_iff e.loop? (by rw [hself])).1
    (h.refusals _ (List.mem_map_of_mem ha))
  obtain ⟨b, hb, hbkey, hparsed⟩ := exists_of_loop? hloop
  have hsame : b = a := List.inj_on_of_nodup_map h.keys hb ha (hbkey.trans hkey.symm)
  rw [hsame] at hparsed
  exact ⟨l, hloop, ((Rendering.loop_eq_ok_iff _ _ l).1 hparsed.symm).1⟩

/-- The key of a loop stands beside an attribute `v-for`. -/
theorem exists_loop_of_key (h : e.Accepted) (hkind : (e.directive a).kind = .key) :
    ∃ f ∈ e.attributes, f.key = ("v-for" : Text) ∧
      ∃ l, e.loop? = some (.ok l) ∧ Loop.parse? (f.value.getD []) = some l := by
  obtain ⟨loop, hloop⟩ := Option.isSome_iff_exists.1 (Directive.hasLoop_of_key hkind)
  obtain ⟨f, hf, hkey, -⟩ := exists_of_loop? hloop
  exact ⟨f, hf, hkey, h.loop?_of_key hf hkey⟩

theorem translatable (h : e.Accepted) (ha : a ∈ e.attributes) :
    (e.directive a).Translatable e.loop? :=
  (refusals_eq_nil_iff (Property.allFit_of_agrees h.agrees)).1 h.refusals _
    (List.mem_map_of_mem ha)

/-- A loop is the one of the element. -/
theorem loop?_of_kind (h : e.Accepted) (ha : a ∈ e.attributes)
    (hkind : (e.directive a).kind = .loop) :
    ∃ l, e.loop? = some (.ok l) ∧ Loop.parse? (a.value.getD []) = some l := by
  have htranslatable := h.translatable ha
  rw [Directive.Translatable, hkind] at htranslatable
  obtain ⟨-, hkey, -⟩ := htranslatable
  rw [directive, Directive.ofAttributeIn_key] at hkey
  exact h.loop?_of_key ha hkey

/-- What an attribute adds is set by its directive. -/
theorem mem_sets_of_adds (h : e.Accepted) (ha : a ∈ e.attributes) {p : Property}
    (hadds : e.Adds a p) : p ∈ (e.directive a).sets e.loop? := by
  have hvalue : (e.directive a).value = a.value := Directive.ofAttributeIn_value _ a
  have hkey : (e.directive a).key = a.key := Directive.ofAttributeIn_key _ a
  unfold Directive.sets
  cases hadds with
  | literal kind => simp [kind, hkey, hvalue]
  | on kind called given => simp [kind, called, hvalue, given, Directive.fixed]
  | bind kind given => simp [kind, hvalue, given, Directive.binding]
  | when kind given => simp [kind, hvalue, given, Directive.binding]
  | elseWhen kind given => simp [kind, hvalue, given, Directive.binding]
  | otherwise kind => simp [kind]
  | source kind clause =>
    obtain ⟨l, hloop, hparse⟩ := h.loop?_of_kind ha kind
    cases hparse.symm.trans clause
    simp [kind, hloop, Directive.binding]
  | item kind clause =>
    obtain ⟨l, hloop, hparse⟩ := h.loop?_of_kind ha kind
    cases hparse.symm.trans clause
    simp [kind, hloop, Directive.fixed]
  | index kind clause given =>
    obtain ⟨l, hloop, hparse⟩ := h.loop?_of_kind ha kind
    cases hparse.symm.trans clause
    simp [kind, hloop, given, Directive.fixed]
  | key kind beside loops clause given called =>
    obtain ⟨l, hloop, hparse⟩ := h.loop?_of_key beside loops
    cases hparse.symm.trans clause
    simp [kind, hloop, hvalue, given, called, Directive.fixed]

/-- What a directive sets is added by its attribute. -/
theorem adds_of_mem_sets (h : e.Accepted) (ha : a ∈ e.attributes) {p : Property}
    (hp : p ∈ (e.directive a).sets e.loop?) : e.Adds a p := by
  have hvalue : (e.directive a).value = a.value := Directive.ofAttributeIn_value _ a
  have hkey : (e.directive a).key = a.key := Directive.ofAttributeIn_key _ a
  have htranslatable := h.translatable ha
  unfold Directive.Translatable at htranslatable
  unfold Directive.sets at hp
  cases hkind : (e.directive a).kind with
  | literal =>
    simp only [hkind, hkey, hvalue, List.mem_singleton] at hp
    rw [hp]
    exact .literal hkind
  | on =>
    simp only [hkind] at hp htranslatable
    obtain ⟨hevent, -, hgiven⟩ := htranslatable
    obtain ⟨event, hevent⟩ : ∃ event, Vocabulary.event? (e.directive a).name = some event := by
      rw [← Directive.eventFault?_eq_none_iff, Directive.eventFault?] at hevent
      simpa [Option.isSome_iff_exists] using hevent
    obtain ⟨handler, hhandler⟩ := Option.isSome_iff_exists.1 hgiven
    rw [hevent, hhandler, List.mem_singleton] at hp
    rw [hp]
    exact .on hkind hevent (hvalue ▸ hhandler)
  | bind =>
    simp only [hkind] at hp htranslatable
    obtain ⟨-, value, hgiven, -⟩ := htranslatable
    rw [hgiven, List.mem_singleton] at hp
    rw [hp]
    exact .bind hkind (hvalue ▸ hgiven)
  | when =>
    simp only [hkind] at hp htranslatable
    obtain ⟨-, value, hgiven, -⟩ := htranslatable
    rw [hgiven, List.mem_singleton] at hp
    rw [hp]
    exact .when hkind (hvalue ▸ hgiven)
  | elseWhen =>
    simp only [hkind] at hp htranslatable
    obtain ⟨-, value, hgiven, -⟩ := htranslatable
    rw [hgiven, List.mem_singleton] at hp
    rw [hp]
    exact .elseWhen hkind (hvalue ▸ hgiven)
  | otherwise =>
    simp only [hkind, List.mem_singleton] at hp
    rw [hp]
    exact .otherwise hkind
  | loop =>
    obtain ⟨l, hloop, hparse⟩ := h.loop?_of_kind ha hkind
    simp only [hkind, hloop, List.mem_append, List.mem_cons, List.not_mem_nil, or_false,
      Option.mem_toList, Option.map_eq_some_iff] at hp
    obtain (rfl | rfl) | ⟨i, hi, rfl⟩ := hp
    · exact .source hkind hparse
    · exact .item hkind hparse
    · exact .index hkind hparse hi
  | key =>
    obtain ⟨f, hf, hfkey, l, hloop, hparse⟩ := h.exists_loop_of_key hkind
    simp only [hkind] at hp htranslatable
    obtain ⟨-, value, hgiven, -⟩ := htranslatable
    simp only [hloop, hgiven, Option.getD_some, Option.mem_toList, Option.map_eq_some_iff] at hp
    obtain ⟨name, hname, rfl⟩ := hp
    exact .key hkind hf hfkey hparse (hvalue ▸ hgiven) hname
  | text | html | unsupported => simp [hkind] at hp

/-- Every directive but content sets something. -/
theorem exists_adds (h : e.Accepted) (ha : a ∈ e.attributes)
    (htext : (e.directive a).kind ≠ .text) :
    ∃ p, e.Adds a p := by
  suffices hsome : ∃ p, p ∈ (e.directive a).sets e.loop? by
    obtain ⟨p, hp⟩ := hsome
    exact ⟨p, h.adds_of_mem_sets ha hp⟩
  have htranslatable := h.translatable ha
  unfold Directive.Translatable at htranslatable
  unfold Directive.sets
  cases hkind : (e.directive a).kind with
  | loop =>
    obtain ⟨l, hloop, -⟩ := h.loop?_of_kind ha hkind
    rw [hloop]
    exact ⟨_, List.mem_cons_self⟩
  | key =>
    obtain ⟨f, -, -, l, hloop, -⟩ := h.exists_loop_of_key hkind
    simp only [hkind] at htranslatable
    obtain ⟨-, value, hgiven, hkeyOf⟩ := htranslatable
    obtain ⟨name, hname⟩ := Option.isSome_iff_exists.1
      ((Directive.keyName?_isSome_iff _ _).2 (hkeyOf l hloop))
    exact ⟨Directive.fixed "wx:key" name, by simp [hloop, hgiven, hname]⟩
  | text => exact absurd hkind htext
  | html | unsupported => simp [hkind] at htranslatable
  | bind | on | when | elseWhen | otherwise | literal => exact ⟨_, List.mem_singleton_self _⟩

/-- No two attributes add the same property. -/
theorem eq_of_mem_sets (h : e.Accepted) {b : Attribute} (ha : a ∈ e.attributes)
    (hb : b ∈ e.attributes) {p : Property} (hpa : p ∈ (e.directive a).sets e.loop?)
    (hpb : p ∈ (e.directive b).sets e.loop?) : a = b := by
  have hsymm : Std.Symm fun a b : Attribute => ∀ p ∈ (e.directive a).sets e.loop?,
      ∀ q ∈ (e.directive b).sets e.loop?, Property.Agrees p q :=
    ⟨fun _ _ hab q hq p hp => (hab p hp q hq).symm⟩
  by_contra hne
  have hagrees := (pairwise_added.1 h.agrees).2.forall ha hb hne
  exact p.not_agrees_self (hagrees p hpa p hpb)

/-- Two properties that are merged are a static class or style and its bound form. -/
theorem shares_of_merge (h : e.Accepted) {b : Attribute} (hb : b ∈ e.attributes)
    {s t p : Property} (hs : s ∈ (e.directive a).sets e.loop?)
    (ht : t ∈ (e.directive b).sets e.loop?) (hstatic : s.bound = false) (hbound : t.bound = true)
    (hname : s.name = t.name) (hm : s.merge? t = some p) : e.Shares a b p := by
  obtain ⟨hseparator, hsvalue, -, -⟩ :=
    (Property.merge?_isSome_iff s t).1 (Option.isSome_iff_exists.2 ⟨p, hm⟩)
  have hmerges := (Property.separator?_isSome_iff s.name).1 hseparator
  obtain ⟨-, rfl⟩ | ⟨-, rfl⟩ := Directive.mem_sets_merged hs hmerges
  · obtain ⟨-, rfl⟩ | ⟨hkind, rfl⟩ := Directive.mem_sets_merged ht (hname ▸ hmerges)
    · cases hbound
    · obtain ⟨v, hv⟩ := Option.isSome_iff_exists.1 hsvalue
      have htranslatable := h.translatable hb
      rw [Directive.Translatable, hkind] at htranslatable
      obtain ⟨-, w, hw, -⟩ := htranslatable
      have hva : a.value = some v := by
        rw [← hv]
        exact (Directive.ofAttributeIn_value _ a).symm
      have hwb : b.value = some w := by
        rw [← hw]
        exact (Directive.ofAttributeIn_value _ b).symm
      have hkey : (e.directive a).key = a.key := Directive.ofAttributeIn_key _ a
      have hbname : a.key = (e.directive b).name := hkey.symm.trans hname
      have hv' : (e.directive a).value = some v := hv
      rw [hkey, hv', hw] at hm
      replace hmerges : a.key = ("class" : Text) ∨ a.key = ("style" : Text) := hkey ▸ hmerges
      obtain hclass | hstyle := hmerges
      · rw [← hbname, hclass] at hm
        cases hm
        exact .class hclass hva hkind (hbname ▸ hclass) hwb
      · rw [← hbname, hstyle] at hm
        cases hm
        exact .style hstyle hva hkind (hbname ▸ hstyle) hwb
  · cases hstatic

end Accepted

/-- The properties of an element are what its attributes add. -/
theorem accounts_of_ofAttributes {e : Element} {ps : Properties}
    (hkeys : (e.attributes.map Attribute.key).Nodup)
    (h : Properties.ofAttributes e.attributes = .ok ps) : e.Accounts ps.list := by
  have haccepted := (accepted_iff hkeys).2 ⟨ps, h⟩
  have hcomes := comes_of_ofAttributes haccepted h
  obtain ⟨-, hcollected, -⟩ := Rendering.ofAttributes_ok h
  refine ⟨hcollected.nodup, fun a ha => haccepted.exists_adds ha, ?_, ?_⟩
  · intro a ha p hadds
    have hp := haccepted.mem_sets_of_adds ha hadds
    obtain ⟨r, hr, hname⟩ := hcollected.covers p (mem_added.2 ⟨a, ha, hp⟩)
    obtain ⟨hmem, honly⟩ | ⟨s, hs, t, ht, hstatic, hbound, hsname, htname, hm, honly⟩ := hcomes r hr
    · left
      rw [honly p (mem_added.2 ⟨a, ha, hp⟩) hname.symm]
      exact hr
    · right
      obtain ⟨c, hc, hsc⟩ := mem_added.1 hs
      obtain ⟨d, hd, htd⟩ := mem_added.1 ht
      have hshares := haccepted.shares_of_merge hd hsc htd hstatic hbound
        (hsname.trans htname.symm) hm
      obtain rfl | rfl := honly p (mem_added.2 ⟨a, ha, hp⟩) hname.symm
      · obtain rfl := haccepted.eq_of_mem_sets ha hc hp hsc
        exact ⟨d, hd, r, hr, hname, .inl hshares⟩
      · obtain rfl := haccepted.eq_of_mem_sets ha hd hp htd
        exact ⟨c, hc, r, hr, hname, .inr hshares⟩
  · intro p hp
    obtain ⟨hmem, honly⟩ | ⟨s, hs, t, ht, hstatic, hbound, hsname, htname, hm, honly⟩ := hcomes p hp
    · left
      obtain ⟨a, ha, hpa⟩ := mem_added.1 hmem
      refine ⟨a, ha, haccepted.adds_of_mem_sets ha hpa, fun c hc q hadds hname => ?_⟩
      have hq := haccepted.mem_sets_of_adds hc hadds
      rw [honly q (mem_added.2 ⟨c, hc, hq⟩) hname] at hq
      exact haccepted.eq_of_mem_sets hc ha hq hpa
    · right
      obtain ⟨a, ha, hsa⟩ := mem_added.1 hs
      obtain ⟨b, hb, htb⟩ := mem_added.1 ht
      refine ⟨a, ha, b, hb, haccepted.shares_of_merge hb hsa htb hstatic hbound
        (hsname.trans htname.symm) hm, fun c hc q hadds hname => ?_⟩
      have hq := haccepted.mem_sets_of_adds hc hadds
      obtain rfl | rfl := honly q (mem_added.2 ⟨c, hc, hq⟩) hname
      · exact .inl (haccepted.eq_of_mem_sets hc ha hq hsa)
      · exact .inr (haccepted.eq_of_mem_sets hc hb hq htb)

/-- A key before its loop, a class and a style in two parts each, a style that ends in semicolons,
an event with two modifiers, content and a flag. -/
def manySample : Element :=
  ⟨"p", [⟨":key", some "x.id", .empty 0⟩, ⟨"v-for", some "(x, i) of xs", .empty 0⟩,
    ⟨":style", some "s", .empty 0⟩, ⟨"style", some "top:0;; ", .empty 0⟩,
    ⟨"class", some "a", .empty 0⟩, ⟨"v-bind:class", some "b", .empty 0⟩,
    ⟨"@click.stop.capture", some "f", .empty 0⟩, ⟨"v-text", some "t", .empty 0⟩,
    ⟨"hidden", none, .empty 0⟩], false, .empty 0, .empty 0⟩

/-- What they become. -/
def manyProperties : List Property :=
  [⟨"wx:key", some "id", false⟩, ⟨"wx:for", some "\x7b\x7bxs\x7d\x7d", true⟩,
    ⟨"wx:for-item", some "x", false⟩, ⟨"wx:for-index", some "i", false⟩,
    ⟨"style", some "top:0; \x7b\x7bs\x7d\x7d", true⟩, ⟨"class", some "a \x7b\x7bb\x7d\x7d", true⟩,
    ⟨"capture-catch:tap", some "f", false⟩, ⟨"hidden", none, false⟩]

theorem accounts_of_ofAttributes_many :
    (manySample.attributes.map Attribute.key).Nodup ∧
      Properties.ofAttributes manySample.attributes =
        .ok ⟨manyProperties, some "\x7b\x7bt\x7d\x7d"⟩ ∧
      manySample.Accounts manyProperties := by
  have hkeys : (manySample.attributes.map Attribute.key).Nodup := by decide
  have h : Properties.ofAttributes manySample.attributes =
      .ok ⟨manyProperties, some "\x7b\x7bt\x7d\x7d"⟩ := by decide +kernel
  exact ⟨hkeys, h, accounts_of_ofAttributes hkeys h⟩

end Element

end Wxml
