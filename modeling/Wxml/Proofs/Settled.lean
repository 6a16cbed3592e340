import Wxml.Proofs.Printing
import Wxml.Proofs.Traversal

/-!
# Trees that are rendered as they are

A settled tree (`Node.Settled`) has nothing left to translate: its tags are those of WXML, its
attributes are no directives, and its void elements are self-closing.  `plain_of_settled` says that
such a tree is rendered as what it is printed as.  Where its nodes stand does not matter
(`Node.settled_unplaced`, `Node.print_unplaced`).
-/

namespace Wxml

open Rendering (Fault)

/-! ### Attributes that are no directives -/

namespace Directive

/-- Keys that mean nothing but themselves. -/
def IsLiteral (key : Text) : Prop := (classify key).1 = .literal

instance : DecidablePred IsLiteral := fun key =>
  inferInstanceAs (Decidable ((classify key).1 = .literal))

theorem isLiteral_of_kind {a : Attribute} (h : (ofAttribute a).kind = .literal) :
    IsLiteral a.key := by
  unfold ofAttribute at h
  rw [IsLiteral]
  cases hclass : classify a.key with
  | mk kind rest =>
    simp only [hclass] at h
    by_contra hkind
    split at h
    all_goals
      split at h
      · cases h
      · exact hkind h

theorem ofAttributeIn_of_isLiteral (hasLoop : Bool) {a : Attribute} (h : IsLiteral a.key) :
    ofAttributeIn hasLoop a = ⟨a.key, .literal, a.key, [], a.value, a.span⟩ := by
  have hkind : (classify a.key).1 = .literal := h
  simp [ofAttributeIn, ofAttribute, hkind]

end Directive

/-- An attribute as a property. -/
def Attribute.toProperty (a : Attribute) : Property := ⟨a.key, a.value, false⟩

theorem Property.add?_of_new {q : Property} {ps : List Property} (h : ∀ p ∈ ps, p.name ≠ q.name) :
    add? q ps = some (ps ++ [q]) := by
  induction ps with
  | nil => rfl
  | cons p ps ih =>
    simp only [List.mem_cons, forall_eq_or_imp] at h
    rw [add?, if_neg h.1, ih h.2]
    rfl

namespace Properties

theorem addAll_of_isLiteral (loop : Option (Except Fault Loop)) {as : List Attribute}
    {ps : Properties} (hliteral : ∀ a ∈ as, Directive.IsLiteral a.key)
    (hdistinct : (as.map Attribute.key).Nodup)
    (hnew : ∀ a ∈ as, ∀ p ∈ ps.list, p.name ≠ a.key) :
    addAll loop as ps = .ok ⟨ps.list ++ as.map Attribute.toProperty, ps.inserted⟩ := by
  induction as generalizing ps with
  | nil => simp [addAll]
  | cons a as ih =>
    rw [List.map_cons, List.nodup_cons] at hdistinct
    simp only [List.mem_cons, forall_eq_or_imp] at hliteral hnew
    have hadd : Property.add? a.toProperty ps.list = some (ps.list ++ [a.toProperty]) :=
      Property.add?_of_new hnew.1
    have hinsert : ∀ d : Directive, ps.insert d a.toProperty =
        .ok { ps with list := ps.list ++ [a.toProperty] } := by
      intro d
      rw [insert, hadd]
    have hrest : ∀ b ∈ as, ∀ p ∈ ps.list ++ [a.toProperty], p.name ≠ b.key := by
      intro b hb p hp
      cases List.mem_append.1 hp with
      | inl old => exact hnew.2 b hb p old
      | inr new =>
        rw [List.mem_singleton.1 new]
        exact fun same => hdistinct.1 (List.mem_map.2 ⟨b, hb, same.symm⟩)
    rw [addAll, Directive.ofAttributeIn_of_isLiteral _ hliteral.1, Directive.convert]
    simp only [show (⟨a.key, a.value, false⟩ : Property) = a.toProperty from rfl, hinsert]
    rw [ih hliteral.2 hdistinct.2 hrest]
    simp

/-- Attributes that are no directives become properties as they are. -/
theorem ofAttributes_of_isLiteral {as : List Attribute}
    (hliteral : ∀ a ∈ as, Directive.IsLiteral a.key) (hdistinct : (as.map Attribute.key).Nodup) :
    ofAttributes as = .ok ⟨as.map Attribute.toProperty, none⟩ :=
  addAll_of_isLiteral _ hliteral hdistinct (by simp [empty])

end Properties

/-! ### Settled trees -/

/-- An element that is already one of WXML. -/
structure Element.Settled (e : Element) : Prop where
  native : e.tag ∈ Vocabulary.nativeTags
  literal : ∀ a ∈ e.attributes, Directive.IsLiteral a.key
  distinct : (e.attributes.map Attribute.key).Nodup
  void : e.selfClosing = Vocabulary.isVoid e.tag

theorem Element.settled_unplaced (e : Element) : e.unplaced.Settled ↔ e.Settled := by
  have hkeys : e.unplaced.attributes.map Attribute.key = e.attributes.map Attribute.key := by
    simp [Element.unplaced, Attribute.unplaced]
  have hliteral : (∀ a ∈ e.unplaced.attributes, Directive.IsLiteral a.key) ↔
      ∀ a ∈ e.attributes, Directive.IsLiteral a.key := by
    simp [Element.unplaced, Attribute.unplaced]
  constructor
  · exact fun h => ⟨h.native, hliteral.1 h.literal, hkeys ▸ h.distinct, h.void⟩
  · exact fun h => ⟨h.native, hliteral.2 h.literal, hkeys ▸ h.distinct, h.void⟩

namespace Node

mutual

/-- A tree with nothing left to translate. -/
def Settled : Node → Prop
  | .element head children => head.Settled ∧ SettledAll children
  | .expression raw _ => Expression.hasFilter raw = false
  | .text _ _ => True
  | .comment _ _ => True

def SettledAll : List Node → Prop
  | [] => True
  | node :: nodes => node.Settled ∧ SettledAll nodes

end

mutual

theorem settled_unplaced : ∀ node : Node, node.unplaced.Settled ↔ node.Settled
  | .element head children => by
    rw [unplaced, Settled, Settled, head.settled_unplaced, settledAll_unplaced children]
  | .expression _ _ => Iff.rfl
  | .text _ _ => Iff.rfl
  | .comment _ _ => Iff.rfl

theorem settledAll_unplaced : ∀ nodes : List Node, SettledAll (unplacedAll nodes) ↔ SettledAll nodes
  | [] => Iff.rfl
  | node :: nodes => by
    rw [unplacedAll, SettledAll, SettledAll, settled_unplaced node, settledAll_unplaced nodes]

end

mutual

theorem print_unplaced : ∀ node : Node, node.unplaced.print = node.print
  | .element head children => by
    have hattributes : head.unplaced.attributes.flatMap Attribute.markup =
        head.attributes.flatMap Attribute.markup := by
      rw [Element.unplaced, List.flatMap_map]
      rfl
    rw [unplaced, print, print, hattributes, printAll_unplaced children]
    rfl
  | .expression _ _ => rfl
  | .text _ _ => rfl
  | .comment _ _ => rfl

theorem printAll_unplaced : ∀ nodes : List Node, printAll (unplacedAll nodes) = printAll nodes
  | [] => rfl
  | node :: nodes => by
    rw [unplacedAll, printAll, printAll, print_unplaced node, printAll_unplaced nodes]

end

end Node

namespace Rendering

theorem destination_of_native {e : Element} (h : e.tag ∈ Vocabulary.nativeTags) :
    Vocabulary.destination e = .ok e.tag := by
  simp [Vocabulary.destination, Vocabulary.tagRule?, h]

mutual

/-- A settled tree is rendered as it is printed. -/
theorem plain_of_settled : ∀ node : Node, node.Settled → plain true node = .ok node.print
  | .text _ _, _ => rfl
  | .comment content _, _ => by simp [plain, Node.print]
  | .expression raw _, h => by
    have hfilter : Expression.hasFilter raw = false := h
    simp [plain, Node.print, hfilter]
  | .element head children, h => by
    obtain ⟨hhead, hchildren⟩ := h
    have hproperties := Properties.ofAttributes_of_isLiteral hhead.literal hhead.distinct
    have hmarkup : Properties.markup ⟨head.attributes.map Attribute.toProperty, none⟩ =
        head.attributes.flatMap Attribute.markup := by
      rw [Properties.markup, List.flatMap_map]
      rfl
    rw [plain, destination_of_native hhead.native, hproperties, Node.print, hhead.void]
    cases hvoid : Vocabulary.isVoid head.tag with
    | true => simp [hvoid, hmarkup, Template.tagEnd]
    | false => simp [hvoid, hmarkup, Template.tagEnd, plainAll_of_settled children hchildren]

theorem plainAll_of_settled : ∀ nodes : List Node, Node.SettledAll nodes →
    plainAll true nodes = .ok (Node.printAll nodes)
  | [], _ => rfl
  | node :: nodes, h => by
    rw [plainAll, plain_of_settled node h.1, plainAll_of_settled nodes h.2]
    rfl

end

end Rendering

end Wxml
