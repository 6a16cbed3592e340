import Wxml.Proofs.Placement

/-!
# A template covers its source

`Progress` is the invariant of `Template.build` between two events: the nodes of each open element
fill the source from its opening tag up to the next open element, and those of the innermost one up
to the cursor.  Each kind of event keeps it, and `build_scan_placed` carries it through all events
of a source; a fault on the way points into the source.

`nodes_placed_and_source_covered` is the result for whole templates.
-/

namespace Wxml

namespace Template

/-! ### All events -/

/-- Nodes that fill a stretch of the source, the nearest first. -/
structure Row (source : Text) (a : Nat) (nodes : List Node) (b : Nat) : Prop where
  tiles : Tiles source isBlank a (nodes.reverse.map Node.span) b
  placed : ∀ node ∈ nodes, node.AllPlaced source

/-- An element whose children are still being read. -/
structure Frame.Placed (source : Text) (frame : Frame) : Prop where
  opened : ∃ inTag, frame.head.OpenedAt source inTag frame.head.span.stop
  notBare : ¬ frame.head.Bare
  notRaw : isRawText frame.head.tag = false
  within : frame.head.span.Within source

/-- What was read up to an offset: the nodes of the innermost open element, and for each open
element the siblings before it. -/
def Progress (source : Text) : List Node → List Frame → Nat → Prop
  | nodes, [], b => Row source 0 nodes b
  | nodes, frame :: frames, b =>
    Row source frame.head.span.stop nodes b ∧ frame.Placed source ∧
      Progress source frame.before frames frame.head.span.start

namespace Row

variable {source : Text} {nodes : List Node} {a b d : Nat}

theorem gap (h : Row source a nodes b) (hgap : Gap source isBlank b d) : Row source a nodes d :=
  ⟨h.tiles.append_gap hgap, h.placed⟩

theorem cons {node : Node} (h : Row source a nodes b) (hspan : node.span = ⟨b, d⟩)
    (hnode : node.AllPlaced source) (hd : Gap source isBlank d d) :
    Row source a (node :: nodes) d where
  tiles := by
    have hle : b ≤ d := by
      obtain ⟨piece, hcovers⟩ := (hnode node node.mem_subtree_self).within
      rw [hspan] at hcovers
      exact hcovers.start_le
    rw [List.reverse_cons, List.map_append, List.map_singleton, hspan]
    exact h.tiles.append_span hle hd
  placed := by
    rw [List.forall_mem_cons]
    exact ⟨hnode, h.placed⟩

end Row

namespace Progress

variable {source : Text} {nodes : List Node} {frames : List Frame} {a b : Nat}

theorem gap (h : Progress source nodes frames a) (hgap : Gap source isBlank a b) :
    Progress source nodes frames b := by
  cases frames with
  | nil => exact Row.gap h hgap
  | cons frame frames => exact ⟨h.1.gap hgap, h.2⟩

theorem complete {node : Node} (h : Progress source nodes frames a)
    (hnode : Event.Placed source a b (.complete node)) (hb : Gap source isBlank b b) :
    Progress source (node :: nodes) frames b := by
  cases frames with
  | nil => exact Row.cons h hnode.1 hnode.2 hb
  | cons frame frames => exact ⟨h.1.cons hnode.1 hnode.2 hb, h.2⟩

theorem opened {head : Element} {after : Cursor} (h : Progress source nodes frames a)
    (hhead : Event.Placed source a after.offset (.opened head)) (hafter : after.In source) :
    Progress source [] (⟨head, nodes⟩ :: frames) after.offset := by
  obtain ⟨hspan, hbare, hraw, inTag, hopened⟩ := hhead
  have hstop : head.span.stop = after.offset := by rw [hspan]
  have hstart : head.span.start = a := by rw [hspan]
  have hwithin : head.span.Within source := by
    obtain ⟨rest, hcovers⟩ := Event.whole_of_openedAt hopened (Nat.le_refl _) hafter.boundary
    rw [hspan] at hcovers ⊢
    exact ⟨_, hcovers⟩
  refine ⟨⟨?_, by simp⟩, ⟨⟨inTag, ?_⟩, hbare, hraw, hwithin⟩, ?_⟩
  · show Tiles source isBlank head.span.stop [] after.offset
    rw [hstop]
    exact hafter.gap_self _
  · rw [hstop]
    exact hopened
  · rw [hstart]
    exact h

/-- The innermost open element ends, and is one more of the nodes around it. -/
theorem closed {frame : Frame} {last : Cursor} (h : Progress source nodes (frame :: frames) a)
    (hlast : last.In source) (hcloses : Closes source frame.head.tag a last.offset) :
    Progress source
      (.element { frame.head with span := ⟨frame.head.span.start, last.offset⟩ } nodes.reverse ::
        frame.before) frames last.offset := by
  obtain ⟨hrow, ⟨⟨inTag, hopened⟩, hbare, hraw, -⟩, houter⟩ := h
  have hends := Event.ends_of_closes hcloses
  have hplaced := Event.allPlaced_of_ends hopened hlast hrow.tiles
    (fun child hchild => hrow.placed child (List.mem_reverse.1 hchild))
    (fun hbare' => absurd hbare' hbare) hends
  exact houter.complete ⟨rfl, hplaced⟩ (hlast.gap_self _)

end Progress

/-- The nodes of a whole source in their places, or a fault at a place of it. -/
def Outcome (source : Text) : Except Fault (List Node) → Prop
  | .ok nodes => Row source 0 nodes.reverse (Text.size source)
  | .error fault => fault.span.Within source

/-- The nodes that are read from a source fill it, and a fault that is found points into it. -/
theorem build_scan_placed {source : Text} (c : Cursor) (hin : c.In source) :
    ∀ {nodes : List Node} {frames : List Frame}, Progress source nodes frames c.offset →
      Outcome source (build (Event.scan c) nodes frames) := by
  induction c using Event.scan_induction with
  | stop c hend =>
    intro nodes frames h
    rw [Event.scan_of_end hend]
    cases frames with
    | nil =>
      rw [build, Outcome, List.reverse_reverse, ← hin.offset_eq_size hend]
      exact h
    | cons frame frames => exact h.2.1.within
  | failed c fault hend hread =>
    intro nodes frames h
    have hevent := Event.read_outcome hin hend
    rw [hread] at hevent
    rw [Event.scan_of_error hend hread]
    exact hevent
  | next c event after hend hread ih =>
    intro nodes frames h
    have hevent := Event.read_outcome hin hend
    rw [hread] at hevent
    rw [Event.scan_of_read hend hread]
    obtain ⟨hafter, ⟨rfl, hgap⟩ | ⟨found, rfl, hfound⟩⟩ := hevent
    · exact ih hafter (h.gap hgap)
    · show Outcome source (build (found :: Event.scan after) nodes frames)
      cases found with
      | complete node => exact ih hafter (h.complete hfound (hafter.gap_self _))
      | opened head => exact ih hafter (h.opened hfound hafter)
      | closed name span stop =>
        obtain ⟨rfl, hwithin, hcloses⟩ := hfound
        cases frames with
        | nil => exact hwithin
        | cons frame frames =>
          by_cases hname : name = frame.head.tag
          · rw [build, if_pos hname]
            exact ih hafter (h.closed hafter (hname ▸ hcloses))
          · rw [build, if_neg hname]
            exact hwithin
      | failed fault => exact hfound

/-! ### Whole templates -/

/-- The root stands among comments. -/
theorem exists_append_of_root {size : Nat} {found : Option Node} {nodes : List Node} {node : Node}
    (h : root size found nodes = .ok node) :
    (found = some node ∧ ∀ other ∈ nodes, ∃ content span, other = .comment content span) ∨
      found = none ∧ ∃ before after, nodes = before ++ node :: after ∧
        ∀ other ∈ before ++ after, ∃ content span, other = .comment content span := by
  fun_induction root size found nodes with
  | case1 => cases h
  | case2 => exact .inl ⟨by cases h; rfl, by simp⟩
  | case3 found content span nodes ih =>
    rcases ih h with ⟨hfound, hcomments⟩ | ⟨hfound, before, after, rfl, hcomments⟩
    · exact .inl ⟨hfound, List.forall_mem_cons.2 ⟨⟨content, span, rfl⟩, hcomments⟩⟩
    · exact .inr ⟨hfound, .comment content span :: before, after, rfl,
        List.forall_mem_cons.2 ⟨⟨content, span, rfl⟩, hcomments⟩⟩
  | case4 head children nodes ih =>
    rcases ih h with ⟨hfound, hcomments⟩ | ⟨hfound, -⟩
    · cases hfound
      exact .inr ⟨rfl, [], nodes, rfl, hcomments⟩
    · cases hfound
  | case5 => cases h
  | case6 => cases h
  | case7 => cases h

theorem within_root {source : Text} {found : Option Node} {nodes : List Node} {fault : Fault}
    (h : root (Text.size source) found nodes = .error fault)
    (hnodes : ∀ node ∈ nodes, node.span.Within source) : fault.span.Within source := by
  fun_induction root (Text.size source) found nodes with
  | case1 =>
    cases h
    exact ⟨source, [], [], by simp, rfl, by simp [Fault.span]⟩
  | case2 => cases h
  | case3 found content span nodes ih => exact ih h (List.forall_mem_cons.1 hnodes).2
  | case4 head children nodes ih => exact ih h (List.forall_mem_cons.1 hnodes).2
  | case5 node head children nodes =>
    cases h
    exact hnodes _ List.mem_cons_self
  | case6 found content span nodes =>
    cases h
    exact hnodes _ List.mem_cons_self
  | case7 found raw span nodes =>
    cases h
    exact hnodes _ List.mem_cons_self

theorem build_start_placed (source : Text) :
    Outcome source (build (Event.scan (.start source)) [] []) := by
  have hnothing : Progress source [] [] (Cursor.start source).offset :=
    ⟨(Cursor.in_start source).gap_self _, by simp⟩
  exact build_scan_placed _ (Cursor.in_start source) hnothing

theorem exists_row_of_read {source : Text} {root : Node} (h : readPassed source = .ok root) :
    ∃ before after, Row source 0 (before ++ root :: after).reverse (Text.size source) ∧
      ∀ other ∈ before ++ after, ∃ content span, other = .comment content span := by
  have hbuilt := build_start_placed source
  unfold readPassed at h
  split at h
  · cases h
  · rename_i nodes hnodes
    rw [hnodes] at hbuilt
    rcases exists_append_of_root h with ⟨hfound, -⟩ | ⟨-, before, after, rfl, hcomments⟩
    · cases hfound
    · exact ⟨before, after, hbuilt, hcomments⟩

/-- A template that cannot be read is at fault at a place of its source. -/
theorem within_of_read {source : Text} {fault : Fault} (h : readPassed source = .error fault) :
    fault.span.Within source := by
  have hbuilt := build_start_placed source
  unfold readPassed at h
  split at h
  · rename_i found hfault
    rw [hfault] at hbuilt
    cases h
    exact hbuilt
  · rename_i nodes hnodes
    rw [hnodes] at hbuilt
    refine within_root h fun node hnode => ?_
    exact (hbuilt.placed node (List.mem_reverse.2 hnode) node node.mem_subtree_self).within

/-- Nothing of a template is lost or misplaced.  Every node of the tree stands in the source where
its span says, its children side by side between its tags, and around the root there are only blanks
and comments. -/
theorem nodes_placed_and_source_covered {source : Text} {root : Node}
    (hsize : Text.size source < Span.offsetLimit) (h : read source = .ok root) :
    (∀ node ∈ root.subtree, node.Placed source ∧ node.span.stop < Span.offsetLimit) ∧
      ∃ before after,
        (∀ other ∈ before ++ after,
          (∃ content span, other = .comment content span) ∧ other.Placed source) ∧
        Tiles source isBlank 0 ((before ++ root :: after).map Node.span) (Text.size source) := by
  rw [read_eq_readPassed hsize] at h
  obtain ⟨before, after, hrow, hcomments⟩ := exists_row_of_read h
  have hplaced : ∀ node ∈ before ++ root :: after, node.AllPlaced source :=
    fun node hnode => hrow.placed node (List.mem_reverse.2 hnode)
  constructor
  · intro node hnode
    have hhere := hplaced root (by simp) node hnode
    obtain ⟨piece, hcovers⟩ := hhere.within
    exact ⟨hhere, Nat.lt_of_le_of_lt hcovers.stop_le hsize⟩
  · refine ⟨before, after, fun other hother => ⟨hcomments other hother, ?_⟩, ?_⟩
    · have hmem : other ∈ before ++ root :: after := by
        rcases List.mem_append.1 hother with hbefore | hafter
        · exact List.mem_append_left _ hbefore
        · exact List.mem_append_right _ (List.mem_cons_of_mem _ hafter)
      exact hplaced other hmem other other.mem_subtree_self
    · have := hrow.tiles
      rwa [List.reverse_reverse] at this

/-- Comments around the root, a void element with a closing tag, raw text that ends in another case,
and a letter of two bytes. -/
def coveredSample : Text :=
  "<!-- a --> <div v-if='x' b>\n é <br></br>\x7b\x7b y \x7d\x7d<style>p < q</STYLE ></div>" ++
    "\n<!-- b -->"

theorem nodes_placed_and_source_covered_sample :
    Text.size coveredSample < Span.offsetLimit ∧
      ∃ root, read coveredSample = .ok root ∧ root.subtree.length = 6 ∧
        (∀ node ∈ root.subtree,
          node.Placed coveredSample ∧ node.span.stop < Span.offsetLimit) ∧
        ∃ before after,
          (∀ other ∈ before ++ after,
            (∃ content span, other = .comment content span) ∧ other.Placed coveredSample) ∧
          Tiles coveredSample isBlank 0 ((before ++ root :: after).map Node.span)
            (Text.size coveredSample) := by
  have hsize : Text.size coveredSample < Span.offsetLimit := by decide +kernel
  have hsome : ∃ root ∈ (read coveredSample).toOption, root.subtree.length = 6 := by
    decide +kernel
  obtain ⟨root, hroot, hnodes⟩ := hsome
  have h : read coveredSample = .ok root := eq_ok_of_toOption hroot
  exact ⟨hsize, root, h, hnodes, nodes_placed_and_source_covered hsize h⟩

end Template

end Wxml
