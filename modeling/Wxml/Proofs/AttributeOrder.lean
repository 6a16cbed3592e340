import Wxml.Proofs.Accounting

/-!
# The order of attributes

Attributes are taken in the order they are written, and each meets the properties set before it.
Still the order decides only in which order the properties are written: what is accepted
(`Element.Accepted`) and where a property comes from (`Property.Comes`) are said of the attributes
as a whole, so that both are the same for all orders.
-/

namespace Wxml

/-- With distinct keys, an attribute is found by its key wherever it stands. -/
theorem Attribute.find?_eq_some_iff {as : List Attribute} (hkeys : (as.map Attribute.key).Nodup)
    {key : Text} {a : Attribute} : find? key as = some a ↔ a ∈ as ∧ a.key = key := by
  constructor
  · intro h
    exact ⟨List.mem_of_find?_eq_some h, by simpa using List.find?_some h⟩
  · rintro ⟨ha, hkey⟩
    have hsome : (find? key as).isSome = true := by
      rw [find?, List.find?_isSome]
      exact ⟨a, ha, by simp [hkey]⟩
    obtain ⟨b, hb⟩ := Option.isSome_iff_exists.1 hsome
    have hbkey : b.key = key := by simpa using List.find?_some hb
    have hsame : b = a :=
      List.inj_on_of_nodup_map hkeys (List.mem_of_find?_eq_some hb) ha (hbkey.trans hkey.symm)
    rwa [hsame] at hb

theorem Attribute.find?_perm {as bs : List Attribute} (hkeys : (as.map Attribute.key).Nodup)
    (h : as.Perm bs) (key : Text) : find? key as = find? key bs := by
  apply Option.ext
  intro a
  rw [find?_eq_some_iff hkeys, find?_eq_some_iff ((h.map _).nodup_iff.1 hkeys), h.mem_iff]

/-- Where a property comes from does not depend on the order. -/
theorem Property.comes_congr {added added' : List Property} (h : ∀ q, q ∈ added ↔ q ∈ added')
    (p : Property) : Comes added p ↔ Comes added' p := by
  simp only [Comes, h]

namespace Element

/-- The properties of an element are all that come from what its directives set. -/
theorem mem_list_iff {e : Element} {ps : Properties} (haccepted : e.Accepted)
    (h : Properties.ofAttributes e.attributes = .ok ps) (p : Property) :
    p ∈ ps.list ↔ Property.Comes e.added p := by
  have hcomes := comes_of_ofAttributes haccepted h
  refine ⟨hcomes p, fun hp => ?_⟩
  obtain ⟨-, hcollected, -⟩ := Rendering.ofAttributes_ok h
  have hsource : ∃ q ∈ e.added, q.name = p.name := by
    obtain ⟨hmem, -⟩ | ⟨s, hs, -, -, -, -, hname, -⟩ := hp
    · exact ⟨p, hmem, rfl⟩
    · exact ⟨s, hs, hname⟩
  obtain ⟨q, hq, hqname⟩ := hsource
  obtain ⟨r, hr, hrname⟩ := hcollected.covers q hq
  rw [hp.unique (hcomes r hr) (hqname.symm.trans hrname.symm)]
  exact hr

section Reordered

variable {e : Element} {as : List Attribute}

theorem loop?_perm (hkeys : (e.attributes.map Attribute.key).Nodup) (h : e.attributes.Perm as) :
    { e with attributes := as }.loop? = e.loop? := by
  rw [loop?, loop?, Directive.loop?, Directive.loop?, Attribute.find?_perm hkeys h]

theorem directives_perm (hkeys : (e.attributes.map Attribute.key).Nodup)
    (h : e.attributes.Perm as) : e.directives.Perm { e with attributes := as }.directives := by
  rw [directives, directives, loop?_perm hkeys h]
  exact h.map _

theorem added_perm (hkeys : (e.attributes.map Attribute.key).Nodup) (h : e.attributes.Perm as) :
    e.added.Perm { e with attributes := as }.added := by
  rw [added, added, loop?_perm hkeys h]
  exact (directives_perm hkeys h).flatMap_right _

/-- What is accepted does not depend on the order. -/
theorem Accepted.perm (haccepted : e.Accepted) (h : e.attributes.Perm as) :
    { e with attributes := as }.Accepted where
  keys := (h.map _).nodup_iff.1 haccepted.keys
  refusals := by
    intro d hd
    rw [loop?_perm haccepted.keys h]
    exact haccepted.refusals d ((directives_perm haccepted.keys h).mem_iff.2 hd)
  agrees := (added_perm haccepted.keys h).pairwise haccepted.agrees fun hpq => hpq.symm

end Reordered

end Element

/-- The order of attributes does not matter: in any order they are accepted or not, and they become
the same properties, whose order alone may differ. -/
theorem Properties.ofAttributes_perm {e : Element} {as : List Attribute}
    (hkeys : (e.attributes.map Attribute.key).Nodup) (h : e.attributes.Perm as) :
    ((∃ ps, ofAttributes e.attributes = .ok ps) ↔ ∃ qs, ofAttributes as = .ok qs) ∧
      ∀ ps qs, ofAttributes e.attributes = .ok ps → ofAttributes as = .ok qs →
        ps.list.Perm qs.list := by
  have hkeys' : (as.map Attribute.key).Nodup := (h.map _).nodup_iff.1 hkeys
  let reordered : Element := { e with attributes := as }
  have hexists : (∃ qs, ofAttributes as = .ok qs) ↔ reordered.Accepted :=
    (@Element.accepted_iff reordered hkeys').symm
  constructor
  · rw [← Element.accepted_iff hkeys, hexists]
    exact ⟨fun haccepted => haccepted.perm h, fun haccepted => haccepted.perm h.symm⟩
  · intro ps qs hps hqs
    have haccepted := (Element.accepted_iff hkeys).2 ⟨ps, hps⟩
    have hcomes := Element.mem_list_iff haccepted hps
    have hcomes' := @Element.mem_list_iff reordered qs (hexists.1 ⟨qs, hqs⟩) hqs
    have hmem : ∀ p, p ∈ ps.list ↔ p ∈ qs.list := by
      intro p
      rw [hcomes, hcomes']
      exact Property.comes_congr (fun q => (Element.added_perm hkeys h).mem_iff) p
    have hnodup := (Rendering.ofAttributes_ok hps).2.1.nodup
    have hnodup' := (@Rendering.ofAttributes_ok reordered qs hqs).2.1.nodup
    exact (List.perm_ext_iff_of_nodup hnodup.of_map hnodup'.of_map).2 hmem

/-- The bound part of a class before its static part, and a key before its loop. -/
def Element.orderSample : Element :=
  ⟨"p", [⟨":class", some "b", .empty 0⟩, ⟨"class", some "a", .empty 0⟩,
    ⟨":key", some "x", .empty 0⟩, ⟨"v-for", some "x in xs", .empty 0⟩], false, .empty 0, .empty 0⟩

theorem Properties.ofAttributes_perm_orderSample :
    (Element.orderSample.attributes.map Attribute.key).Nodup ∧
      Element.orderSample.attributes.Perm Element.orderSample.attributes.reverse ∧
      ((∃ ps, ofAttributes Element.orderSample.attributes = .ok ps) ↔
        ∃ qs, ofAttributes Element.orderSample.attributes.reverse = .ok qs) ∧
      ∃ ps qs, ofAttributes Element.orderSample.attributes = .ok ps ∧
        ofAttributes Element.orderSample.attributes.reverse = .ok qs ∧ ps.list ≠ qs.list ∧
        ps.list.Perm qs.list := by
  have hkeys : (Element.orderSample.attributes.map Attribute.key).Nodup := by decide
  have hperm := (List.reverse_perm Element.orderSample.attributes).symm
  have hwritten : ∃ ps ∈ (ofAttributes Element.orderSample.attributes).toOption,
      ∃ qs ∈ (ofAttributes Element.orderSample.attributes.reverse).toOption,
        ps.list ≠ qs.list := by decide +kernel
  obtain ⟨ps, hps, qs, hqs, hne⟩ := hwritten
  obtain ⟨hiff, hsame⟩ := ofAttributes_perm hkeys hperm
  exact ⟨hkeys, hperm, hiff, ps, qs, eq_ok_of_toOption hps, eq_ok_of_toOption hqs, hne,
    hsame ps qs (eq_ok_of_toOption hps) (eq_ok_of_toOption hqs)⟩

end Wxml
