import Wxml.Proofs.Quoting
import Wxml.Proofs.Shorthand

/-!
# The tags of frames

Which tag a frame becomes is decided from three keys its attributes may have
(`Vocabulary.frameTag`).  What its properties are called is found by taking every key apart
(`Directive.ofAttribute`).  For a name that only attributes and bindings bring
(`Directive.IsOwnName`) the two come to the same, so the tag of a frame always goes with the
properties it is written with.
-/

namespace Wxml

open Directive (IsOwnName IsBindingOf)

/-- Merging changes no names. -/
theorem Collected.mem_names_iff {earlier ps : List Property} (h : Collected earlier ps)
    (name : Text) : name ∈ ps.map Property.name ↔ ∃ q ∈ earlier, q.name = name := by
  rw [List.mem_map]
  constructor
  · rintro ⟨p, hp, rfl⟩
    exact h.exists_source p hp
  · rintro ⟨q, hq, rfl⟩
    exact h.covers q hq

namespace Element

variable {e : Element} {name : Text}

/-- An attribute of such a name sets a property of that name, and so does a binding of it. -/
theorem exists_property_of_key {a : Attribute} (hown : IsOwnName name) (ha : a ∈ e.attributes)
    (hkey : a.key = name ∨ IsBindingOf name a.key) :
    ∃ q ∈ e.directives.flatMap (·.sets e.loop?), q.name = name := by
  suffices hset : ∃ q ∈ (Directive.ofAttributeIn e.loop?.isSome a).sets e.loop?, q.name = name by
    obtain ⟨q, hq, hname⟩ := hset
    exact ⟨q, List.mem_flatMap.2 ⟨_, List.mem_map_of_mem ha, hq⟩, hname⟩
  unfold Directive.sets
  obtain rfl | hbinding := hkey
  · rw [Directive.ofAttributeIn_static _ hown]
    exact ⟨_, List.mem_singleton_self _, Directive.ofAttributeIn_key _ a⟩
  · obtain ⟨hkind, hname⟩ := Directive.ofAttributeIn_bound e.loop?.isSome hown hbinding
    rw [hkind]
    exact ⟨_, List.mem_singleton_self _, hname⟩

/-- Attributes that are accepted become a property of such a name exactly if one of them has that
name as its key or binds it, in either form. -/
theorem mem_names_iff {ps : Properties} (hown : IsOwnName name)
    (h : Properties.ofAttributes e.attributes = .ok ps) :
    name ∈ ps.list.map Property.name ↔
      ∃ a ∈ e.attributes, a.key = name ∨ IsBindingOf name a.key := by
  obtain ⟨-, hcollected, -⟩ := Rendering.ofAttributes_ok h
  rw [hcollected.mem_names_iff]
  constructor
  · rintro ⟨q, hq, rfl⟩
    obtain ⟨a, ha, hkey, -⟩ | ⟨a, ha, hkey, -⟩ :=
      Properties.exists_attribute_of_own (refusals_of_properties h) hq hown
    · exact ⟨a, ha, .inl hkey⟩
    · exact ⟨a, ha, .inr hkey⟩
  · rintro ⟨a, ha, hkey⟩
    exact exists_property_of_key hown ha hkey

end Element

namespace Vocabulary

variable {e : Element} {ps : Properties}

theorem hasSource_iff :
    (e.hasAttribute "src" || e.hasAttribute ":src" || e.hasAttribute "v-bind:src") = true ↔
      ∃ a ∈ e.attributes, a.key = ("src" : Text) ∨ IsBindingOf "src" a.key := by
  have hforms : ∀ key, IsBindingOf "src" key ↔
      key = (":src" : Text) ∨ key = ("v-bind:src" : Text) := fun key => Iff.rfl
  simp only [Bool.or_eq_true, Element.hasAttribute_iff, hforms, or_assoc, and_or_left, exists_or]

/-- The tag of a frame goes with its properties: if its attributes are accepted, it is the tag of a
page if a property of the frame is its source, and otherwise that of content. -/
theorem destination_of_frame (htag : e.tag = ("iframe" : Text))
    (h : Properties.ofAttributes e.attributes = .ok ps) :
    destination e =
      .ok (if ("src" : Text) ∈ ps.list.map Property.name then "web-view" else "rich-text") := by
  have hrule : tagRule? e.tag = some .frame := by rw [htag]; decide +kernel
  have hsource := Element.mem_names_iff (by decide : IsOwnName "src") h
  rw [← hasSource_iff] at hsource
  simp only [destination, hrule, frameTag, hsource]

/-- A frame that binds its source by the long key, and one with keys that only look like it. -/
theorem destination_of_frame_sample :
    (∃ e ps, e.tag = ("iframe" : Text) ∧
      e.attributes = [⟨"srcdoc", none, .empty 0⟩, ⟨"v-bind:src", some "u", .empty 0⟩] ∧
      Properties.ofAttributes e.attributes = .ok ps ∧ destination e = .ok "web-view") ∧
    ∃ e ps, e.tag = ("iframe" : Text) ∧
      e.attributes = [⟨"v-src", some "u", .empty 0⟩, ⟨":srcdoc", some "d", .empty 0⟩] ∧
      Properties.ofAttributes e.attributes = .ok ps ∧ destination e = .ok "rich-text" := by
  have hbound : Properties.ofAttributes
      [⟨"srcdoc", none, .empty 0⟩, ⟨"v-bind:src", some "u", .empty 0⟩] =
      .ok ⟨[⟨"srcdoc", none, false⟩, ⟨"src", some "\x7b\x7bu\x7d\x7d", true⟩], none⟩ := by
    decide +kernel
  have hother : Properties.ofAttributes
      [⟨"v-src", some "u", .empty 0⟩, ⟨":srcdoc", some "d", .empty 0⟩] =
      .ok ⟨[⟨"v-src", some "u", false⟩, ⟨"srcdoc", some "\x7b\x7bd\x7d\x7d", true⟩], none⟩ := by
    decide +kernel
  exact ⟨⟨⟨"iframe", _, false, .empty 0, .empty 0⟩, _, rfl, rfl, hbound,
      (destination_of_frame rfl hbound).trans (by decide)⟩,
    ⟨⟨"iframe", _, false, .empty 0, .empty 0⟩, _, rfl, rfl, hother,
      (destination_of_frame rfl hother).trans (by decide)⟩⟩

end Vocabulary

end Wxml
