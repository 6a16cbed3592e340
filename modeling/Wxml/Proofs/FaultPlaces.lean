import Wxml.Conversion
import Wxml.Proofs.ComponentPlaces
import Wxml.Proofs.Coverage
import Wxml.Proofs.Translatable

/-!
# Where faults point

A fault of a conversion that has a place names one of the source file.

* `Component.read_outcome` is about the blocks of a component.  A fault that is met lies in the
  source, and what is kept as the template is a stretch of it.
* `Element.cases_of_mem_faults` says which part of an element a fault of it is about.
* `Rendering.Fault.PointsAt` is the same for templates: the piece of text that a fault is shown with
  is a tag, an interpolation, an attribute or an element of the template, or a place where it cannot
  be read.
-/

namespace Wxml

/-! ### Blocks of a component -/

namespace Component

/-- A component whose template stands in a source, or a fault at a place of it. -/
def Outcome (source : Text) : Except Fault Component → Prop
  | .ok component => ∀ block, component.template = some block → block.Placed source
  | .error fault => fault.span.Within source

theorem read_outcome (source : Text) : Outcome source (read source) := by
  have hlaid := read_laid source
  cases hread : read source with
  | error fault =>
    rw [hread] at hlaid
    exact hlaid
  | ok component =>
    rw [hread] at hlaid
    intro block hblock
    exact hlaid.blocks block (by simp [blocks, hblock])

end Component

/-! ### Constructs of a template -/

/-- A fault of something else than a tag, at a span of a template that was read. -/
def Rendering.Fault.At (span : Span) : Rendering.Fault → Prop
  | .tag _ _ _ => False
  | .template _ => False
  | fault => fault.span = span

open Rendering (Fault)

namespace Directive

variable {fault : Fault} {loop : Option (Except Fault Loop)} {d : Directive}

@[simp]
theorem span_ofAttributeIn (hasLoop : Bool) (a : Attribute) :
    (ofAttributeIn hasLoop a).span = a.span := by
  unfold ofAttributeIn
  simp only
  split <;> rfl

/-- A check that finds its faults where the directive stands. -/
def Here (d : Directive) (check : Option Fault) : Prop := ∀ fault ∈ check, fault.At d.span

theorem here_modifierFault? (d : Directive) : d.Here d.modifierFault? := by
  unfold modifierFault?
  cases d.modifiers.head? <;> rintro fault ⟨⟩
  rfl

theorem here_valueFault? (d : Directive) : d.Here d.valueFault? := by
  unfold valueFault?
  split <;> rintro fault ⟨⟩
  rfl

theorem here_objectFault? (d : Directive) : d.Here d.objectFault? := by
  unfold objectFault?
  cases d.value with
  | none => rintro fault ⟨⟩
  | some value =>
    rw [Option.bind_some]
    split <;> rintro fault ⟨⟩
    rfl

theorem here_filterFault? (d : Directive) : d.Here d.filterFault? := by
  unfold filterFault?
  cases d.value with
  | none => rintro fault ⟨⟩
  | some value =>
    rw [Option.bind_some]
    split <;> rintro fault ⟨⟩
    rfl

theorem here_eventFault? (d : Directive) : d.Here d.eventFault? := by
  unfold eventFault?
  split <;> rintro fault ⟨⟩
  rfl

theorem here_listeningFault? (d : Directive) : d.Here d.listeningFault? := by
  unfold listeningFault?
  cases d.modifiers.find? (!isListening ·) <;> rintro fault ⟨⟩
  rfl

theorem here_handlerFault? (d : Directive) : d.Here d.handlerFault? := by
  unfold handlerFault?
  split <;> rintro fault ⟨⟩
  rfl

theorem here_keyFault? (loop : Option (Except Fault Loop)) (d : Directive) :
    d.Here (d.keyFault? loop) := by
  unfold keyFault?
  split
  · split <;> rintro fault ⟨⟩
    rfl
  · rintro fault ⟨⟩

theorem at_of_loopFault? (h : d.loopFault? loop = some fault) :
    fault.At d.span ∨ loop = some (.error fault) := by
  unfold loopFault? at h
  split at h
  · cases h
    exact .inl rfl
  · cases h
    exact .inr rfl
  · cases h

theorem here_of_mem_checks (loop : Option (Except Fault Loop)) (d : Directive) :
    ∀ check ∈ d.checks loop, d.Here check ∨ check = d.loopFault? loop := by
  have hrefused : ∀ reason, d.Here (some (.directive d.key reason d.span)) := by
    rintro reason fault ⟨⟩
    rfl
  unfold checks
  cases d.kind <;>
    simp [hrefused, here_modifierFault?, here_valueFault?, here_objectFault?, here_filterFault?,
      here_eventFault?, here_listeningFault?, here_handlerFault?, here_keyFault?]

/-- A directive is refused where it stands, unless the loop beside it is at fault. -/
theorem at_of_mem_refusals (h : fault ∈ d.refusals loop) :
    fault.At d.span ∨ loop = some (.error fault) := by
  obtain ⟨check, hcheck, hfault⟩ := List.mem_filterMap.1 h
  rcases here_of_mem_checks loop d check hcheck with hhere | rfl
  · exact .inl (hhere fault hfault)
  · exact at_of_loopFault? hfault

theorem at_of_mem_clashes {earlier qs : List Property} (h : fault ∈ d.clashes earlier qs) :
    fault.At d.span := by
  induction qs generalizing earlier with
  | nil => cases h
  | cons q qs ih =>
    rw [clashes, List.mem_append] at h
    rcases h with hhere | hlater
    · split at hhere
      · cases hhere
      · rw [List.mem_singleton.1 hhere]
        rfl
    · exact ih hlater

theorem at_of_mem_allFaults {earlier : List Property} {ds : List Directive}
    (h : fault ∈ allFaults loop earlier ds) :
    (∃ d ∈ ds, fault.At d.span) ∨ loop = some (.error fault) := by
  induction ds generalizing earlier with
  | nil => cases h
  | cons d ds ih =>
    rw [allFaults, faults, List.mem_append, List.mem_append] at h
    rcases h with (hrefused | hclash) | hlater
    · exact (at_of_mem_refusals hrefused).imp_left fun hat => ⟨d, List.mem_cons_self, hat⟩
    · exact .inl ⟨d, List.mem_cons_self, at_of_mem_clashes hclash⟩
    · rcases ih hlater with ⟨e, he, hat⟩ | hloop
      · exact .inl ⟨e, List.mem_cons_of_mem _ he, hat⟩
      · exact .inr hloop

end Directive

/-- A loop is refused where its attribute stands. -/
theorem Rendering.at_of_loop {head : Text} {span : Span} {fault : Fault}
    (h : loop head span = .error fault) : fault.At span := by
  unfold loop rejectFilter at h
  split at h
  · cases h
    rfl
  · split at h
    · cases h
      rfl
    · cases h

namespace Element

variable {e : Element} {fault : Fault}

/-- What is wrong with an element is wrong with its tag, with one of its attributes, or with content
that it cannot hold. -/
theorem cases_of_mem_faults (h : fault ∈ e.faults) :
    (∃ reason, fault = .tag e.tag reason e.tagSpan) ∨
      (∃ a ∈ e.attributes, fault.At a.span) ∨
      ∃ tag, fault = .directive "v-text" (.voidElement tag) e.span := by
  rw [faults, List.mem_append, List.mem_append] at h
  rcases h with (htag | hattributes) | hcontent
  · left
    unfold tagFaults at htag
    split at htag
    · exact ⟨_, List.mem_singleton.1 htag⟩
    · exact ⟨_, List.mem_singleton.1 htag⟩
    · cases htag
  · right; left
    rcases Directive.at_of_mem_allFaults hattributes with ⟨d, hd, hat⟩ | hloop
    · obtain ⟨a, ha, rfl⟩ := List.mem_map.1 hd
      rw [Directive.span_ofAttributeIn] at hat
      exact ⟨a, ha, hat⟩
    · obtain ⟨a, ha, hfault⟩ := Option.map_eq_some_iff.1 hloop
      exact ⟨a, List.mem_of_find?_eq_some ha, Rendering.at_of_loop hfault⟩
  · right
    unfold contentFaults at hcontent
    split at hcontent
    · rename_i tag hdestination
      split at hcontent
      · rw [List.mem_singleton.1 hcontent]
        unfold Rendering.textSpan
        split
        · rename_i a ha
          exact .inl ⟨a, List.mem_of_find?_eq_some ha, rfl⟩
        · exact .inr ⟨tag, rfl⟩
      · cases hcontent
    · cases hcontent

end Element

namespace Rendering

mutual

theorem mem_subtree_of_mem_visited {node : Node} :
    ∀ {root : Node}, node ∈ visited root → node ∈ root.subtree
  | .text _ _, h => h
  | .comment _ _, h => h
  | .expression _ _, h => h
  | .element head children, h => by
    rw [visited, List.mem_cons] at h
    rw [Node.subtree, List.mem_cons]
    rcases h with hroot | hinside
    · exact .inl hroot
    · right
      split at hinside
      · cases hinside
      · exact mem_subtrees_of_mem_visitedAll hinside

theorem mem_subtrees_of_mem_visitedAll {node : Node} :
    ∀ {nodes : List Node}, node ∈ visitedAll nodes → node ∈ Node.subtrees nodes
  | [], h => h
  | top :: nodes, h => by
    rw [visitedAll, List.mem_append] at h
    rw [Node.subtrees, List.mem_append]
    exact h.imp mem_subtree_of_mem_visited mem_subtrees_of_mem_visitedAll

end

/-- What of a template a fault of its rendering is shown with.  An unsupported tag is shown by its
name.  Any other construct is an interpolation, an attribute from its key on, or, for content that a
void element cannot hold, that element.  A template that cannot be read has the place of its own
fault. -/
def Fault.PointsAt (content : Text) (fault : Fault) (piece : Text) : Prop :=
  match fault with
  | .template found => Template.read content = .error found
  | .tag name _ span =>
    piece = name ∧ ∃ root, Template.read content = .ok root ∧
      ∃ head children, .element head children ∈ root.subtree ∧ head.tag = name ∧
        head.tagSpan = span
  | fault =>
    ∃ root, Template.read content = .ok root ∧
      ((∃ raw, .expression raw fault.span ∈ root.subtree ∧
          piece = "\x7b\x7b" ++ (raw ++ "\x7d\x7d")) ∨
        (∃ head children, .element head children ∈ root.subtree ∧
          ∃ a ∈ head.attributes, a.span = fault.span ∧ a.key <+: piece) ∨
        ∃ head children name, .element head children ∈ root.subtree ∧
          fault = .directive "v-text" (.voidElement name) head.span ∧ '<' :: head.tag <+: piece)

/-- What is wrong with a node of a template points at a part of it. -/
theorem pointsAt_of_mem_faults {content : Text} {root node : Node} {fault : Fault}
    (hread : Template.read content = .ok root) (hnode : node ∈ root.subtree)
    (hplaced : node.Placed content) (hfault : fault ∈ node.faults) :
    ∃ piece, fault.span.Covers content piece ∧ fault.PointsAt content piece := by
  cases node with
  | text _ _ => cases hfault
  | comment _ _ => cases hfault
  | expression raw span =>
    rw [Node.faults] at hfault
    split at hfault
    · rw [List.mem_singleton.1 hfault]
      exact ⟨_, hplaced, root, hread, .inl ⟨raw, hnode, rfl⟩⟩
    · cases hfault
  | element head children =>
    obtain ⟨inTag, inside, close, hat⟩ := hplaced
    rcases Element.cases_of_mem_faults hfault with ⟨reason, rfl⟩ | ⟨a, ha, hspan⟩ | ⟨tag, rfl⟩
    · exact ⟨_, hat.opening.tag, rfl, root, hread, head, children, hnode, rfl, rfl⟩
    · obtain ⟨t, -, hcovers⟩ := hat.opening.spelled a ha
      refine ⟨a.key ++ t, ?_⟩
      have hattribute : ∃ head children, .element head children ∈ root.subtree ∧
          ∃ b ∈ head.attributes, b.span = a.span ∧ b.key <+: a.key ++ t :=
        ⟨head, children, hnode, a, ha, rfl, List.prefix_append _ _⟩
      cases fault with
      | tag _ _ _ => cases hspan
      | template _ => cases hspan
      | modifier _ _ span | event _ span | directive _ _ span | expression _ _ span =>
        cases hspan
        exact ⟨hcovers, root, hread, .inr (.inl hattribute)⟩
    · obtain ⟨rest, hcovers⟩ := hat.whole
      exact ⟨_, hcovers, root, hread,
        .inr (.inr ⟨head, children, tag, hnode, rfl, List.prefix_append ('<' :: head.tag) rest⟩)⟩

theorem pointsAt_of_ofSource {comments : Bool} {content : Text} {fault : Fault}
    (hsize : Text.size content < Span.offsetLimit) (h : ofSource comments content = .error fault) :
    ∃ piece, fault.span.Covers content piece ∧ fault.PointsAt content piece := by
  have hsame := Template.read_eq_readPassed hsize
  unfold ofSource at h
  split at h
  · rename_i found hread
    cases h
    obtain ⟨piece, hcovers⟩ := Template.within_of_read (hsame ▸ hread)
    exact ⟨piece, hcovers, hread⟩
  · rename_i root hread
    rw [ofNode_error_iff] at h
    obtain ⟨node, hvisited, hfault⟩ := List.mem_flatMap.1 (List.mem_of_head? h)
    have hnode := mem_subtree_of_mem_visited hvisited
    obtain ⟨before, after, hrow, -⟩ := Template.exists_row_of_read (hsame ▸ hread)
    exact pointsAt_of_mem_faults hread hnode (hrow.placed root (by simp) node hnode) hfault

end Rendering

/-! ### Whole files -/

namespace Conversion

/-- The place of a fault is one of the file: it lies inside, begins and ends between characters, and
counts up without overflow.  What is shown of the file for a fault of the rendering is the part of
the template that the fault is about. -/
theorem fault_points_into_source {o : Options} {source : Text} {fault : Fault} {span : Span}
    (hsize : Text.size source < Span.offsetLimit) (h : ofSource o source = .error fault)
    (hspan : fault.span? = some span) :
    (span.start ≤ span.stop ∧ span.stop ≤ Text.size source ∧ Text.Boundary source span.start ∧
      Text.Boundary source span.stop ∧ span.stop < Span.offsetLimit) ∧
    ∀ found offset, fault = .rendering found offset →
      ∃ component template piece, Component.read source = .ok component ∧
        component.template = some template ∧ template.contentSpan.start = offset ∧
        template.contentSpan.Covers source template.content ∧
        found.span.Covers template.content piece ∧ span.Covers source piece ∧
        found.PointsAt template.content piece := by
  have hvalid : ∀ {piece}, span.Covers source piece →
      span.start ≤ span.stop ∧ span.stop ≤ Text.size source ∧ Text.Boundary source span.start ∧
        Text.Boundary source span.stop ∧ span.stop < Span.offsetLimit :=
    fun hcovers => ⟨hcovers.start_le, hcovers.stop_le, hcovers.boundary_start,
      hcovers.boundary_stop, Nat.lt_of_le_of_lt hcovers.stop_le hsize⟩
  have houtcome := Component.read_outcome source
  unfold ofSource at h
  split at h
  · rename_i found hread
    rw [hread] at houtcome
    cases h
    cases hspan
    obtain ⟨piece, hcovers⟩ := houtcome
    exact ⟨hvalid hcovers, by rintro _ _ ⟨⟩⟩
  · rename_i component hread
    rw [hread] at houtcome
    split at h
    · cases h
      cases hspan
    · rename_i template htemplate
      split at h
      · cases h
        cases hspan
      · unfold ofTemplate at h
        split at h
        · rename_i found hrender
          cases h
          cases hspan
          have hcontent := (houtcome template htemplate).content
          obtain ⟨piece, hcovers, hpoints⟩ :=
            Rendering.pointsAt_of_ofSource (hcontent.size_le.trans_lt hsize) hrender
          have hshifted := hcovers.shift hcontent
          refine ⟨hvalid hshifted, ?_⟩
          rintro _ _ ⟨⟩
          exact ⟨component, template, piece, hread, htemplate, rfl, hcontent, hcovers, hshifted,
            hpoints⟩
        · cases h

/-- A script before the template, letters of two bytes, and a modifier that no event has. -/
def faultySample : Text :=
  "<script>é</script>\n<template lang=\"html\"><div>é<p id=a @click.once='f'>é</p></div></template>"

def faultySampleFault : Rendering.Fault := .modifier "@click.once" "once" ⟨15, 30⟩

theorem fault_points_into_source_sample :
    Text.size faultySample < Span.offsetLimit ∧
      ofSource ⟨true, .default⟩ faultySample = .error (.rendering faultySampleFault 42) ∧
      (57 ≤ 72 ∧ 72 ≤ Text.size faultySample ∧ Text.Boundary faultySample 57 ∧
        Text.Boundary faultySample 72 ∧ 72 < Span.offsetLimit) ∧
      ∃ component template piece, Component.read faultySample = .ok component ∧
        component.template = some template ∧ template.contentSpan.start = 42 ∧
        template.contentSpan.Covers faultySample template.content ∧
        faultySampleFault.span.Covers template.content piece ∧
        (⟨57, 72⟩ : Span).Covers faultySample piece ∧
        faultySampleFault.PointsAt template.content piece := by
  have hsize : Text.size faultySample < Span.offsetLimit := by decide +kernel
  have h : ofSource ⟨true, .default⟩ faultySample = .error (.rendering faultySampleFault 42) := by
    decide +kernel
  obtain ⟨hvalid, hshown⟩ := fault_points_into_source hsize h rfl
  exact ⟨hsize, h, hvalid, hshown faultySampleFault 42 rfl⟩

end Conversion

end Wxml
