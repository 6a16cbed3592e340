import Wxml.Proofs.Settled
import Wxml.Proofs.Translatable

/-!
# The translated tree

A template is rendered as the print of another tree, its translation (`Translates`): tags are those
of WXML, properties stand for attributes, and the content that a directive puts in is an
interpolation.  `exists_translation` says so for every tree that is rendered at all.
-/

namespace Wxml

open Template (isRawText)
open Rendering (plain plainAll)

/-! ### Tags -/

namespace Vocabulary

/-- The tags that have a counterpart. -/
def knownTags : List Text :=
  nativeTags ++ viewSources ++ (["span", "template", "img", "iframe"] : List Text)

/-- The tags that a rule leads to. -/
def TagRule.targets (source : Text) : TagRule → List Text
  | .native => [source]
  | .renamed tag => [tag]
  | .frame => ["web-view", "rich-text"]
  | .rejected _ => []

theorem targets_of_known : ∀ source ∈ knownTags, isRawText source = false ∧
    ∀ rule ∈ tagRule? source, ∀ tag ∈ rule.targets source,
      tag ∈ nativeTags ∧ (isVoid source = true → isVoid tag = true) := by
  decide +kernel

/-- The tag of an element that has a counterpart, and what it becomes. -/
theorem destination_spec {e : Element} {tag : Text} (h : destination e = .ok tag) :
    isRawText e.tag = false ∧ tag ∈ nativeTags ∧ (isVoid e.tag = true → isVoid tag = true) := by
  have hknown : e.tag ∈ knownTags := by
    have hfaults := Rendering.tagFaults_eq e
    rw [h] at hfaults
    simpa [knownTags, or_assoc] using (Element.tagFaults_eq_nil_iff e).1 hfaults
  obtain ⟨hraw, htargets⟩ := targets_of_known e.tag hknown
  refine ⟨hraw, ?_⟩
  unfold destination at h
  cases hrule : tagRule? e.tag with
  | none => simp [hrule] at h
  | some rule =>
    refine htargets rule hrule tag ?_
    cases rule with
    | native => simp_all [TagRule.targets]
    | renamed tag => simp_all [TagRule.targets]
    | frame =>
      simp only [hrule, Except.ok.injEq, frameTag] at h
      rw [← h]
      split <;> simp [TagRule.targets]
    | rejected reason => simp [hrule] at h

end Vocabulary

/-! ### The translated tree -/

/-- A property as an attribute that stands nowhere. -/
def Property.toAttribute (p : Property) : Attribute := ⟨p.name, p.value, .empty 0⟩

namespace Element

/-- The expression that the directives of an element put into it; the last one counts. -/
def inserted? (e : Element) : Option Text :=
  (e.directives.filterMap fun d => if d.kind = .text then some (d.value.getD []) else none).getLast?

/-- The element that a tag and properties make. -/
def ofProperties (tag : Text) (ps : Properties) : Element :=
  ⟨tag, ps.list.map Property.toAttribute, Vocabulary.isVoid tag, .empty 0, .empty 0⟩

theorem inserted_eq {e : Element} {ps : Properties}
    (h : Properties.ofAttributes e.attributes = .ok ps) :
    ps.inserted = e.inserted?.map interpolate := by
  have hcontent : Directive.content? = fun d : Directive =>
      (if d.kind = .text then some (d.value.getD []) else none).map interpolate := by
    funext d
    rw [Directive.content?]
    split <;> rfl
  rw [(Rendering.ofAttributes_ok h).2.2, hcontent, inserted?, ← List.getLast?_map,
    List.map_filterMap]

end Element

/-- The nodes on the right are what those on the left are rendered as. -/
inductive Translates : List Node → List Node → Prop
  | nil : Translates [] []
  | text {content : Text} {span : Span} {nodes nodes' : List Node}
      (rest : Translates nodes nodes') :
      Translates (.text content span :: nodes) (.text content span :: nodes')
  | comment {content : Text} {span : Span} {nodes nodes' : List Node}
      (rest : Translates nodes nodes') :
      Translates (.comment content span :: nodes) (.comment content span :: nodes')
  | expression {raw : Text} {span : Span} {nodes nodes' : List Node}
      (noFilter : Expression.hasFilter raw = false) (rest : Translates nodes nodes') :
      Translates (.expression raw span :: nodes) (.expression raw span :: nodes')
  | void {e : Element} {children nodes nodes' : List Node} {tag : Text} {ps : Properties}
      (becomes : Vocabulary.destination e = .ok tag)
      (properties : Properties.ofAttributes e.attributes = .ok ps)
      (isVoid : Vocabulary.isVoid tag = true) (rest : Translates nodes nodes') :
      Translates (.element e children :: nodes) (.element (.ofProperties tag ps) [] :: nodes')
  | element {e : Element} {children children' nodes nodes' : List Node} {tag : Text}
      {ps : Properties} (becomes : Vocabulary.destination e = .ok tag)
      (properties : Properties.ofAttributes e.attributes = .ok ps)
      (notVoid : Vocabulary.isVoid tag = false) (inside : Translates children children')
      (rest : Translates nodes nodes') :
      Translates (.element e children :: nodes)
        (.element (.ofProperties tag ps)
          (e.inserted?.toList.map (.expression · (.empty 0)) ++ children') :: nodes')

namespace Rendering

theorem printAll_inserted (e : Element) :
    Node.printAll (e.inserted?.toList.map (.expression · (.empty 0))) =
      (e.inserted?.map interpolate).getD [] := by
  cases e.inserted? with
  | none => rfl
  | some raw => simp [Node.printAll, Node.print, interpolate]

theorem markup_ofProperties (tag : Text) (ps : Properties) :
    (Element.ofProperties tag ps).attributes.flatMap Attribute.markup = ps.markup := by
  rw [Element.ofProperties, List.flatMap_map]
  rfl

mutual

/-- A node is rendered as the print of its translation. -/
theorem exists_translation (node : Node) {w : Text} (h : plain true node = .ok w)
    {nodes nodes' : List Node} (hrest : Translates nodes nodes') :
    ∃ node', Translates (node :: nodes) (node' :: nodes') ∧ node'.print = w := by
  match node with
  | .text content span =>
    cases h
    exact ⟨_, .text hrest, rfl⟩
  | .comment content span =>
    simp only [plain, ↓reduceIte, Except.ok.injEq] at h
    exact ⟨_, .comment hrest, by simpa [Node.print] using h⟩
  | .expression raw span =>
    rw [plain] at h
    split at h
    · cases h
    · rename_i hfilter
      simp only [Except.ok.injEq] at h
      exact ⟨_, .expression (by simpa using hfilter) hrest, by simpa [Node.print] using h⟩
  | .element head children =>
    rw [plain] at h
    split at h
    · cases h
    · rename_i tag htag
      have hvoid := (Vocabulary.destination_spec htag).2.2
      split at h
      · cases h
      · rename_i ps hps
        have hinserted := Element.inserted_eq hps
        have hmarkup := markup_ofProperties tag ps
        -- The target alone decides: a void source tag never has a target that is not void.
        cases hself : Vocabulary.isVoid tag with
        | true =>
          rw [if_pos (by simp [hself])] at h
          split at h
          · cases h
          · cases h
            refine ⟨_, .void htag hps hself hrest, ?_⟩
            rw [Node.print, hmarkup]
            simp [Element.ofProperties, hself, Template.tagEnd]
        | false =>
          have hsource : Vocabulary.isVoid head.tag = false := by
            rw [Bool.eq_false_iff]
            exact fun hsource => by simp [hvoid hsource] at hself
          rw [if_neg (by simp [hself, hsource])] at h
          split at h
          · cases h
          · rename_i content hcontent
            cases h
            obtain ⟨children', hchildren, rfl⟩ := exists_translations children hcontent
            refine ⟨_, .element htag hps hself hchildren hrest, ?_⟩
            rw [Node.print, hmarkup, Node.printAll_append, printAll_inserted, hinserted]
            simp [Element.ofProperties, hself, Template.tagEnd]

theorem exists_translations (nodes : List Node) {w : Text} (h : plainAll true nodes = .ok w) :
    ∃ nodes', Translates nodes nodes' ∧ Node.printAll nodes' = w := by
  match nodes with
  | [] =>
    cases h
    exact ⟨[], .nil, rfl⟩
  | node :: nodes =>
    rw [plainAll] at h
    split at h
    · cases h
    · rename_i first hfirst
      split at h
      · cases h
      · rename_i others hothers
        cases h
        obtain ⟨nodes', hnodes, rfl⟩ := exists_translations nodes hothers
        obtain ⟨node', hnode, rfl⟩ := exists_translation node hfirst hnodes
        exact ⟨node' :: nodes', hnode, rfl⟩

end

end Rendering

end Wxml
