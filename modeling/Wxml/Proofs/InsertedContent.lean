import Wxml.Proofs.Accounting

/-!
# The content that attributes put into their element

A `v-text` gives its element content.  Unlike a property, content that is there already does not
keep another from taking its place, and there may be two, since `v-text` can have an argument
(`Directive.AsksContent`).

* `Directive.kind_ofAttributeIn_eq_text_iff` says which keys ask for content,
* `Properties.addAll_inserted` says that what was inserted before counts for nothing but itself,
* `Element.Fills` tells from this which content an element has, when there is only one to choose
  from, and that all but the last are lost.
-/

namespace Wxml

open Rendering (Fault)

namespace Directive

/-! ### Keys that ask for content -/

/-- The keys that ask for content: `v-text`, alone or with an argument. -/
def AsksContent (key : Text) : Prop := key = ("v-text" : Text) ∨ ("v-text:" : Text) <+: key

theorem kindOfName_eq_text_iff (name : Text) :
    kindOfName name = .text ↔ name = ("text" : Text) := by
  unfold kindOfName
  split_ifs <;> simp_all [-String.reduceToList]

theorem classify_eq_text_iff {key rest : Text} :
    classify key = (.text, rest) ↔
      key = 'v' :: '-' :: rest ∧ rest.takeWhile (!endsName ·) = ("text" : Text) := by
  constructor
  · intro h
    unfold classify at h
    split at h
    · cases h
    · cases h
    · cases h
    · rename_i directive
      unfold classifyLong at h
      simp only at h
      split at h
      · split at h
        · split at h <;> cases h
        · cases h
      · split at h
        · cases h
        · obtain ⟨hkind, rfl⟩ := Prod.mk.inj h
          exact ⟨rfl, (kindOfName_eq_text_iff _).1 hkind⟩
    · cases h
  · rintro ⟨rfl, hname⟩
    rw [classify, classifyLong, hname]
    rfl

/-- Only a key that asks for content names a directive of this kind without modifiers. -/
theorem asksContent_of_classify {key rest : Text} (h : classify key = (.text, rest))
    (hmodifiers : (splitModifiers rest).2 = []) : AsksContent key := by
  obtain ⟨rfl, hname⟩ := classify_eq_text_iff.1 h
  have hwhole := List.takeWhile_append_dropWhile (p := (!endsName ·)) (l := rest)
  rw [hname] at hwhole
  cases hdrop : rest.dropWhile (!endsName ·) with
  | nil =>
    rw [hdrop] at hwhole
    rw [← hwhole]
    exact .inl rfl
  | cons c argument =>
    have hends : endsName c = true := by
      have hnot := List.head?_dropWhile_not (!endsName ·) rest
      simpa [hdrop] using hnot
    rw [endsName, Bool.or_eq_true, beq_iff_eq, beq_iff_eq] at hends
    rw [hdrop] at hwhole
    rw [← hwhole] at hmodifiers ⊢
    rcases hends with rfl | rfl
    · exact .inr ⟨argument, rfl⟩
    · -- What follows the dot is a modifier.
      have hsplit : Text.splitOn '.' (("text" : Text) ++ '.' :: argument) =
          ("text" : Text) :: Text.splitOn '.' argument := rfl
      rw [splitModifiers, if_neg (by simp), hsplit] at hmodifiers
      exact absurd hmodifiers (Text.splitOn_ne_nil '.' argument)

theorem exists_classify_of_asksContent {key : Text} (h : AsksContent key) :
    ∃ rest, classify key = (.text, rest) := by
  rcases h with rfl | ⟨argument, rfl⟩
  · exact ⟨_, rfl⟩
  · exact ⟨_, rfl⟩

theorem kind_ofAttributeIn_eq_text_iff (hasLoop : Bool) (a : Attribute) :
    (ofAttributeIn hasLoop a).kind = .text ↔ (classify a.key).1 = .text := by
  unfold ofAttributeIn ofAttribute
  obtain ⟨kind, rest⟩ := classify a.key
  simp only
  -- Only a binding or an event can turn out to be of another kind.
  cases kind <;> simp <;> split_ifs <;> simp

theorem modifiers_ofAttributeIn {rest : Text} (hasLoop : Bool) {a : Attribute}
    (h : classify a.key = (.text, rest)) :
    (ofAttributeIn hasLoop a).modifiers = (splitModifiers rest).2 := by
  unfold ofAttributeIn ofAttribute
  simp only [h]
  rfl

end Directive

/-! ### Content that is replaced -/

namespace Properties

variable {loop : Option (Except Fault Loop)}

theorem insertAll_inserted {d : Directive} {qs : List Property} {ps ps' : Properties}
    (h : insertAll d qs ps = .ok ps') (x : Option Text) :
    insertAll d qs { ps with inserted := x } = .ok { ps' with inserted := x } := by
  induction qs generalizing ps with
  | nil =>
    cases h
    rfl
  | cons q qs ih =>
    rw [insertAll, insert] at h ⊢
    cases hadd : Property.add? q ps.list with
    | none =>
      rw [hadd] at h
      cases h
    | some list =>
      rw [hadd] at h
      exact ih h

/-- A directive does what it does whatever the content is, and replaces it or keeps it. -/
theorem convert_inserted {d : Directive} {ps ps' : Properties} (h : d.convert loop ps = .ok ps')
    (x : Option Text) :
    d.convert loop { ps with inserted := x } = .ok { ps' with inserted := d.content?.or x } := by
  have hput : d.putContent { ps with inserted := x } =
      { d.putContent ps with inserted := d.content?.or x } := by
    unfold Directive.putContent Directive.content?
    split <;> rfl
  rw [Directive.convert_eq] at h ⊢
  cases hrefusals : (d.refusals loop).head? with
  | some fault =>
    rw [hrefusals] at h
    cases h
  | none =>
    rw [hrefusals] at h
    rw [hput]
    exact insertAll_inserted h _

/-- The content before some attributes is seen only if none of them replaces it. -/
theorem addAll_inserted {as : List Attribute} {ps ps' : Properties}
    (h : addAll loop as ps = .ok ps') (x : Option Text) :
    addAll loop as { ps with inserted := x } =
      .ok { ps' with inserted := ((as.map (Directive.ofAttributeIn loop.isSome)).filterMap
        Directive.content?).getLast?.or x } := by
  induction as generalizing ps x with
  | nil =>
    cases h
    rfl
  | cons a as ih =>
    rw [addAll] at h ⊢
    cases hconvert : (Directive.ofAttributeIn loop.isSome a).convert loop ps with
    | error fault =>
      rw [hconvert] at h
      cases h
    | ok next =>
      rw [hconvert] at h
      rw [convert_inserted hconvert x]
      refine (ih h _).trans ?_
      rw [List.map_cons]
      cases hcontent : (Directive.ofAttributeIn loop.isSome a).content? with
      | none => rw [List.filterMap_cons_none hcontent, Option.none_or]
      | some content =>
        rw [List.filterMap_cons_some hcontent, List.getLast?_cons, Option.some_or]
        cases ((as.map (Directive.ofAttributeIn loop.isSome)).filterMap
          Directive.content?).getLast? <;> rfl

theorem addAll_append (as bs : List Attribute) (ps : Properties) :
    addAll loop (as ++ bs) ps = (addAll loop as ps).bind (addAll loop bs) := by
  induction as generalizing ps with
  | nil => rfl
  | cons a as ih =>
    rw [List.cons_append, addAll, addAll]
    cases (Directive.ofAttributeIn loop.isSome a).convert loop ps with
    | error fault => rfl
    | ok next => exact ih next

/-- Attributes are added as they would be without one that gives content, if another one gives
content after it. -/
theorem addAll_without {before after : List Attribute} {b : Attribute} {ps : Properties}
    (hb : (Directive.ofAttributeIn loop.isSome b).kind = .text)
    (hafter : ∃ a ∈ after, (Directive.ofAttributeIn loop.isSome a).kind = .text)
    (h : addAll loop (before ++ b :: after) empty = .ok ps) :
    addAll loop (before ++ after) empty = .ok ps := by
  rw [addAll_append] at h ⊢
  cases hbefore : addAll loop before empty with
  | error fault =>
    rw [hbefore] at h
    cases h
  | ok qs =>
    rw [hbefore] at h
    have h : addAll loop (b :: after) qs = .ok ps := h
    have hsets : (Directive.ofAttributeIn loop.isSome b).sets loop = [] := by
      simp [Directive.sets, hb]
    rw [addAll, Directive.convert_eq, hsets] at h
    cases hrefusals : ((Directive.ofAttributeIn loop.isSome b).refusals loop).head? with
    | some fault =>
      rw [hrefusals] at h
      cases h
    | none =>
      rw [hrefusals, Directive.putContent, if_pos hb] at h
      have hlater := addAll_inserted h qs.inserted
      have hsame := addAll_inserted h
        (some (interpolate ((Directive.ofAttributeIn loop.isSome b).value.getD [])))
      have hcontent : (((after.map (Directive.ofAttributeIn loop.isSome)).filterMap
          Directive.content?).getLast?).isSome = true := by
        obtain ⟨a, ha, hkind⟩ := hafter
        rw [Directive.isSome_content, List.any_eq_true]
        exact ⟨_, List.mem_map_of_mem ha, by simpa using hkind⟩
      obtain ⟨content, hlast⟩ := Option.isSome_iff_exists.1 hcontent
      rw [hlast, Option.some_or] at hlater hsame
      exact hlater.trans (hsame.symm.trans h)

end Properties

/-! ### The content of an element -/

namespace Element

open Directive (AsksContent)

/-- The attributes of an element that give content, in their order. -/
def contents (e : Element) : List Attribute :=
  e.attributes.filter fun a => (e.directive a).kind = .text

/-- How the attributes of an element that is accepted give it content. -/
structure Fills (e : Element) (ps : Properties) : Prop where
  asked : ∀ a ∈ e.attributes, (e.directive a).kind = .text ↔ AsksContent a.key
  valued : ∀ a ∈ e.contents, a.value.isSome = true
  /-- The last one counts. -/
  given : ps.inserted = (e.contents.getLast?.bind Attribute.value).map interpolate
  /-- There is one at most exactly if a `v-text` with an argument has no other beside it. -/
  single : e.contents.length ≤ 1 ↔ ∀ a ∈ e.attributes, ∀ b ∈ e.attributes,
    AsksContent a.key → ("v-text:" : Text) <+: b.key → a.key = b.key
  /-- Each but the last could as well not be there. -/
  lost : ∀ before b after, e.attributes = before ++ b :: after → b ∈ e.contents →
    (∃ a ∈ after, a ∈ e.contents) → Properties.ofAttributes (before ++ after) = .ok ps

variable {e : Element} {ps : Properties} {a : Attribute}

theorem mem_contents : a ∈ e.contents ↔ a ∈ e.attributes ∧ (e.directive a).kind = .text := by
  simp [contents]

namespace Accepted

theorem asksContent_iff (h : e.Accepted) (ha : a ∈ e.attributes) :
    (e.directive a).kind = .text ↔ AsksContent a.key := by
  rw [directive, Directive.kind_ofAttributeIn_eq_text_iff]
  constructor
  · intro hkind
    have hclass : Directive.classify a.key = (.text, (Directive.classify a.key).2) :=
      Prod.ext hkind rfl
    have htranslatable := h.translatable ha
    rw [Directive.Translatable, directive,
      (Directive.kind_ofAttributeIn_eq_text_iff _ a).2 hkind] at htranslatable
    refine Directive.asksContent_of_classify hclass ?_
    rw [← Directive.modifiers_ofAttributeIn e.loop?.isSome hclass]
    exact htranslatable.1
  · intro hasks
    obtain ⟨rest, hclass⟩ := Directive.exists_classify_of_asksContent hasks
    rw [hclass]

theorem isSome_value_of_mem_contents (h : e.Accepted) (ha : a ∈ e.contents) :
    a.value.isSome = true := by
  obtain ⟨hmem, hkind⟩ := mem_contents.1 ha
  have htranslatable := h.translatable hmem
  rw [Directive.Translatable, hkind] at htranslatable
  obtain ⟨-, value, hvalue, -⟩ := htranslatable
  rw [directive, Directive.ofAttributeIn_value] at hvalue
  rw [hvalue]
  rfl

theorem length_contents_le_one_iff (h : e.Accepted) :
    e.contents.length ≤ 1 ↔ ∀ a ∈ e.attributes, ∀ b ∈ e.attributes,
      AsksContent a.key → ("v-text:" : Text) <+: b.key → a.key = b.key := by
  have hasks {c : Attribute} (hc : c ∈ e.attributes) (hkey : AsksContent c.key) :
      c ∈ e.contents := mem_contents.2 ⟨hc, (h.asksContent_iff hc).2 hkey⟩
  constructor
  · intro hlength a ha b hb hakey hbkey
    obtain ⟨c, hc⟩ | hnone := (Nat.le_one_iff_eq_zero_or_eq_one.1 hlength).symm.imp
      List.length_eq_one_iff.1 List.length_eq_zero_iff.1
    · have hac := hasks ha hakey
      have hbc := hasks hb (.inr hbkey)
      rw [hc, List.mem_singleton] at hac hbc
      rw [hac, hbc]
    · have hac := hasks ha hakey
      rw [hnone] at hac
      cases hac
  · intro halone
    have hnodup : e.contents.Nodup := h.keys.of_map.filter _
    have hsame : ∀ a ∈ e.contents, ∀ b ∈ e.contents, a = b := by
      intro a ha b hb
      obtain ⟨hamem, hakind⟩ := mem_contents.1 ha
      obtain ⟨hbmem, hbkind⟩ := mem_contents.1 hb
      have hakey := (h.asksContent_iff hamem).1 hakind
      have hbkey := (h.asksContent_iff hbmem).1 hbkind
      have hkeys : a.key = b.key := by
        rcases hbkey with hbplain | hbargument
        · rcases hakey with haplain | haargument
          · rw [haplain, hbplain]
          · exact (halone b hbmem a hamem (.inl hbplain) haargument).symm
        · exact halone a hamem b hbmem hakey hbargument
      exact List.inj_on_of_nodup_map h.keys hamem hbmem hkeys
    cases hcontents : e.contents with
    | nil => simp
    | cons a rest =>
      cases rest with
      | nil => simp
      | cons b rest =>
        rw [hcontents] at hnodup hsame
        have hab := hsame a (by simp) b (by simp)
        simp [hab] at hnodup

end Accepted

theorem inserted_of_ofAttributes (haccepted : e.Accepted)
    (h : Properties.ofAttributes e.attributes = .ok ps) :
    ps.inserted = (e.contents.getLast?.bind Attribute.value).map interpolate := by
  have hcontent : e.directives.filterMap Directive.content? =
      e.contents.map fun a => interpolate (a.value.getD []) := by
    rw [directives, List.filterMap_map, contents, ← List.filterMap_eq_map, List.filterMap_filter]
    refine List.filterMap_congr fun a _ => ?_
    rw [Function.comp_apply, Directive.content?, Directive.ofAttributeIn_value, directive]
    simp
  rw [(Rendering.ofAttributes_ok h).2.2, hcontent, List.getLast?_map]
  cases hlast : e.contents.getLast? with
  | none => rfl
  | some a =>
    obtain ⟨value, hvalue⟩ := Option.isSome_iff_exists.1
      (haccepted.isSome_value_of_mem_contents (List.mem_of_getLast? hlast))
    simp [hvalue]

/-- The content of an element is that of the last attribute that gives some, and no fault says that
there are others. -/
theorem fills_of_ofAttributes (hkeys : (e.attributes.map Attribute.key).Nodup)
    (h : Properties.ofAttributes e.attributes = .ok ps) : e.Fills ps := by
  have haccepted := (accepted_iff hkeys).2 ⟨ps, h⟩
  refine ⟨fun a ha => haccepted.asksContent_iff ha,
    fun a ha => haccepted.isSome_value_of_mem_contents ha, inserted_of_ofAttributes haccepted h,
    haccepted.length_contents_le_one_iff, ?_⟩
  rintro before b after hsplit hb ⟨a, ha, hcontent⟩
  have hfind :
      Attribute.find? "v-for" (before ++ after) = Attribute.find? "v-for" e.attributes := by
    have hkey : ¬ b.key = ("v-for" : Text) := by
      intro hloop
      have hkind := (mem_contents.1 hb).2
      rw [directive, Directive.ofAttributeIn_loop _ hloop] at hkind
      cases hkind
    rw [hsplit, Attribute.find?, Attribute.find?, List.find?_append, List.find?_append,
      List.find?_cons_of_neg (by simpa using hkey)]
  rw [Properties.ofAttributes, Directive.loop?, hfind]
  refine Properties.addAll_without (mem_contents.1 hb).2 ⟨a, ha, (mem_contents.1 hcontent).2⟩ ?_
  rw [← hsplit]
  exact h

/-- A `v-text` on either side of a property, the second with an argument. -/
def contentSample : Element :=
  ⟨"p", [⟨"v-text", some "a", .empty 0⟩, ⟨"id", some "x", .empty 0⟩,
    ⟨"v-text:b", some "c", .empty 0⟩], false, .empty 0, .empty 0⟩

theorem fills_of_ofAttributes_sample :
    (contentSample.attributes.map Attribute.key).Nodup ∧
      Properties.ofAttributes contentSample.attributes =
        .ok ⟨[⟨"id", some "x", false⟩], some "\x7b\x7bc\x7d\x7d"⟩ ∧
      contentSample.Fills ⟨[⟨"id", some "x", false⟩], some "\x7b\x7bc\x7d\x7d"⟩ := by
  have hkeys : (contentSample.attributes.map Attribute.key).Nodup := by decide
  have h : Properties.ofAttributes contentSample.attributes =
      .ok ⟨[⟨"id", some "x", false⟩], some "\x7b\x7bc\x7d\x7d"⟩ := by decide +kernel
  exact ⟨hkeys, h, fills_of_ofAttributes hkeys h⟩

/-- Of two attributes that give content one is lost. -/
theorem exists_content_lost :
    ∃ (e : Element) (ps : Properties) (a b : Attribute),
      (e.attributes.map Attribute.key).Nodup ∧ Properties.ofAttributes e.attributes = .ok ps ∧
        e.contents = [a, b] ∧ a.value ≠ b.value ∧ ps.inserted = b.value.map interpolate := by
  refine ⟨contentSample, ⟨[⟨"id", some "x", false⟩], some "\x7b\x7bc\x7d\x7d"⟩,
    ⟨"v-text", some "a", .empty 0⟩, ⟨"v-text:b", some "c", .empty 0⟩, ?_, ?_, ?_, ?_, ?_⟩
  · decide
  · decide +kernel
  · decide +kernel
  · decide
  · decide

end Element

end Wxml
