import Mathlib.Data.List.Chain
import Wxml.Proofs.Printing

/-!
# Trees that were read

Whatever text a template is read from, its tree is well formed (`Node.Parsed`): names are names,
nothing holds what would have ended it, and neighbours do not run into each other.  Only what an
element of raw text holds is not looked into.

`Event.read_cases` says what one event can be, and `Event.scan_parsed` what a sequence of them is.
`Template.build_parsed` carries this over to the tree; its invariant is on the nodes of each open
element, the nearest first, and on the seam between the nearest one and the next event.
-/

namespace Wxml

open Template

/-- An element whose attributes have names. -/
def Element.Named (e : Element) : Prop :=
  ∀ a ∈ e.attributes, Cursor.isAttributeName a.key = true

/-- A tree as it can be read. -/
inductive Node.Parsed : Node → Prop
  | text {content : Text} {span : Span} (notBlank : Text.allBlank content = false)
      (clear : ClearOfMarkup content) : Parsed (.text content span)
  | comment {content : Text} {span : Span} (clear : ClearOfComments content) :
      Parsed (.comment content span)
  | expression {raw : Text} {span : Span} (clear : ClearOfBraces raw) :
      Parsed (.expression raw span)
  | element {head : Element} {children : List Node} (named : head.Named)
      (inside : isRawText head.tag = false → ∀ node ∈ children, Parsed node)
      (seams : isRawText head.tag = false → children.IsChain Seam) :
      Parsed (.element head children)

/-! ### Names -/

theorem Cursor.isAttributeName_of_attributeName? {c c' : Cursor} {key : Text}
    (h : c.attributeName? = some (key, c')) : isAttributeName key = true := by
  unfold attributeName? name? at h
  split at h
  · simp at h
  · split at h
    · rename_i d rest hhead
      simp only [Option.some.injEq, Prod.mk.injEq] at h
      rw [← h.1, isAttributeName, Bool.and_eq_true]
      exact ⟨hhead, List.all_takeWhile⟩
    · simp at h

namespace Attribute

theorem isAttributeName_of_read? {c c' : Cursor} {a : Attribute}
    (h : read? c = some (.ok (a, c'))) : Cursor.isAttributeName a.key = true := by
  unfold read? at h
  split at h
  · simp at h
  · rename_i key named hname
    split at h
    · simp only [Option.some.injEq, Except.ok.injEq, Prod.mk.injEq] at h
      rw [← h.1]
      exact Cursor.isAttributeName_of_attributeName? hname
    · simp at h

theorem isAttributeName_of_readDistinct (seen : List Text) (c : Cursor) :
    ∀ {as : List Attribute} {c' : Cursor}, readDistinct seen c = .ok (as, c') →
      ∀ a ∈ as, Cursor.isAttributeName a.key = true := by
  fun_induction readDistinct seen c with
  | case1 => intro as c' h; simp_all
  | case2 _ _ _ _ ih => intro as c' h; exact ih h
  | case3 => intro as c' h; simp at h
  | case4 => intro as c' h; simp at h
  | case5 seen c hend a after hread hseen more last hmore ih =>
    intro as c' h
    simp only [Except.ok.injEq, Prod.mk.injEq] at h
    rw [← h.1]
    intro b hb
    cases List.mem_cons.1 hb with
    | inl same => exact same ▸ isAttributeName_of_read? hread
    | inr mem => exact ih hmore b mem
  | case6 => intro as c' h; simp at h

end Attribute

namespace Template

/-! ### Text and markup -/

theorem startsMarkup_append_of_startsMarkup {u : Text} (rest : Text) (h : startsMarkup u = true) :
    startsMarkup (u ++ rest) = true := by
  match u with
  | [] => simp [startsMarkup, startsElement] at h
  | [a] => simp [startsMarkup, startsElement, List.isPrefixOf] at h
  | a :: b :: u =>
    rw [startsMarkup_cons_cons] at h
    rw [List.cons_append, List.cons_append, startsMarkup_cons_cons]
    have hdash : ("--" : Text) <+: u → ("--" : Text) <+: u ++ rest :=
      fun hprefix => hprefix.trans (List.prefix_append _ _)
    tauto

/-- The characters before the next markup, and what follows them. -/
theorem plainText_spec (t : Text) :
    ∃ rest, t = plainText t ++ rest ∧ (rest = [] ∨ startsMarkup rest = true) ∧
      ∀ u, u ≠ [] → u <:+ plainText t → startsMarkup (u ++ rest) = false := by
  induction t with
  | nil => exact ⟨[], rfl, .inl rfl, fun u hu hsuffix => absurd (List.suffix_nil.1 hsuffix) hu⟩
  | cons c t ih =>
    rw [plainText]
    split
    · rename_i hmarkup
      exact ⟨c :: t, rfl, .inr hmarkup, fun u hu hsuffix => absurd (List.suffix_nil.1 hsuffix) hu⟩
    · rename_i hmarkup
      obtain ⟨rest, ht, hrest, hinside⟩ := ih
      refine ⟨rest, by rw [List.cons_append, ← ht], hrest, fun u hu hsuffix => ?_⟩
      cases List.suffix_cons_iff.1 hsuffix with
      | inl whole =>
        rw [whole, List.cons_append, ← ht]
        simpa using hmarkup
      | inr later => exact hinside u hu later

/-- What stands before the first closing braces. -/
theorem clearOfBraces_breakOn {t : Text}
    (h : ("\x7d\x7d" : Text) <+: (Text.breakOn "\x7d\x7d" t).2) :
    ClearOfBraces (Text.breakOn "\x7d\x7d" t).1 := by
  refine ⟨Text.not_isInfix_breakOn t (by simp), fun hlast => ?_⟩
  obtain ⟨before, hbefore⟩ := List.getLast?_eq_some_iff.1 hlast
  refine Text.not_isPrefix_of_breakOn "\x7d\x7d" t (u := ['\x7d']) (by simp)
    ⟨before, hbefore.symm⟩ ?_
  obtain ⟨rest, hrest⟩ := h
  rw [← hrest]
  exact ⟨'\x7d' :: rest, rfl⟩

namespace Event

/-! ### One event -/

theorem named_of_readTag {c after : Cursor} {head : Element} (h : readTag c = .ok (head, after)) :
    head.Named := by
  unfold readTag at h
  simp only at h
  split at h
  · simp at h
  · rename_i attributes close hattributes
    have hnames := Attribute.isAttributeName_of_readDistinct [] _ hattributes
    split at h
    · simp only [Except.ok.injEq, Prod.mk.injEq] at h
      rw [← h.1]
      exact hnames
    · split at h
      · simp only [Except.ok.injEq, Prod.mk.injEq] at h
        rw [← h.1]
        exact hnames
      · simp at h

/-- An event as it can be read. -/
def Parsed : Event → Prop
  | .opened head => head.Named
  | .complete node => node.Parsed
  | .closed _ _ _ => True
  | .failed _ => True

/-- Which events may follow each other. -/
def Seam : Event → Event → Prop
  | .complete node, .complete next => Node.Seam node next
  | _, _ => True

/-- An element that is read is open or complete. -/
theorem readElement_cases {c after : Cursor} {event : Event}
    (h : readElement c = .ok (event, after)) :
    ∃ head children, head.Named ∧ (isRawText head.tag = false → children = []) ∧
      (event = .opened head ∨ event = .complete (.element head children)) := by
  unfold readElement at h
  split at h
  · simp at h
  · rename_i head last htag
    have hnamed := named_of_readTag htag
    simp only at h
    split at h
    · simp only [Except.ok.injEq, Prod.mk.injEq] at h
      exact ⟨head, [], hnamed, fun _ => rfl, .inr h.1.symm⟩
    · split at h
      · simp only [Except.ok.injEq, Prod.mk.injEq] at h
        refine ⟨_, [], ?_, fun _ => rfl, .inr h.1.symm⟩
        exact hnamed
      · split at h
        · rename_i hraw
          split at h
          · simp at h
          · simp only [Except.ok.injEq, Prod.mk.injEq] at h
            refine ⟨_, _, ?_, ?_, .inr h.1.symm⟩
            · exact hnamed
            · simp [hraw]
        · simp only [Except.ok.injEq, Prod.mk.injEq] at h
          exact ⟨head, [], hnamed, fun _ => rfl, .inl h.1.symm⟩

/-- An interpolation that is read ends at the first closing braces. -/
theorem readInterpolation_cases {c after : Cursor} {event : Event}
    (h : readInterpolation c = .ok (event, after)) :
    ∃ raw span, event = .complete (.expression raw span) ∧ ClearOfBraces raw := by
  unfold readInterpolation at h
  simp only at h
  split at h
  · rename_i last hclose
    simp only [Except.ok.injEq, Prod.mk.injEq] at h
    refine ⟨_, _, h.1.symm, clearOfBraces_breakOn ?_⟩
    have hsplit := Text.breakOn_append "\x7d\x7d" (c.advance 2).rest
    have hdrop : ((c.advance 2).takeUntil "\x7d\x7d").2.rest =
        (Text.breakOn "\x7d\x7d" (c.advance 2).rest).2 := by
      rw [Cursor.takeUntil, Cursor.advance_rest]
      nth_rewrite 2 [← hsplit]
      exact List.drop_left
    rw [Cursor.consume?] at hclose
    split at hclose
    · rename_i hstarts
      rwa [Cursor.startsWith_iff, hdrop] at hstarts
    · simp at hclose
  · simp at h

theorem clear_of_comment? {c after : Cursor} {content : Text}
    (h : c.comment? = some (content, after)) : ClearOfComments content := by
  unfold Cursor.comment? at h
  split at h
  · simp at h
  · rename_i body hbody
    split at h
    · simp at h
    · rename_i first d rest hbreak
      simp only [Option.some.injEq, Prod.mk.injEq] at h
      have hclear : ¬ ("-->" : Text) <:+: (Text.breakOn "-->" body).1 :=
        Text.not_isInfix_breakOn body (by simp)
      rw [hbreak, h.1] at hclear
      exact hclear

/-- What one event can be. -/
theorem read_cases {c after : Cursor} {event : Option Event} (h : read c = .ok (event, after)) :
    (∃ name span stop, event = some (.closed name span stop)) ∨
      (∃ content span, event = some (.complete (.comment content span)) ∧ ClearOfComments content) ∨
      (∃ head children, head.Named ∧ (isRawText head.tag = false → children = []) ∧
        (event = some (.opened head) ∨ event = some (.complete (.element head children)))) ∨
      (∃ raw span, event = some (.complete (.expression raw span)) ∧ ClearOfBraces raw ∧
        ("\x7b\x7b" : Text) <+: c.rest) ∨
      (startsMarkup c.rest = false ∧ readText c = (event, after)) := by
  rw [read_eq] at h
  split at h
  · simp only [readClosing, Except.ok.injEq, Prod.mk.injEq] at h
    exact .inl ⟨_, _, _, h.1.symm⟩
  · rename_i hclosing
    split at h
    · split at h
      · rename_i content last hcomment
        simp only [Except.ok.injEq, Prod.mk.injEq] at h
        exact .inr (.inl ⟨_, _, h.1.symm, clear_of_comment? hcomment⟩)
      · simp at h
    · rename_i hcomment
      split at h
      · split at h
        · rename_i element last helement
          simp only [Except.ok.injEq, Prod.mk.injEq] at h
          obtain ⟨head, children, hnamed, hnone, hevent⟩ := readElement_cases helement
          refine .inr (.inr (.inl ⟨head, children, hnamed, hnone, ?_⟩))
          rw [← h.1]
          simpa using hevent
        · simp at h
      · rename_i helement
        split at h
        · rename_i hbraces
          split at h
          · rename_i interpolation last hinterpolation
            simp only [Except.ok.injEq, Prod.mk.injEq] at h
            obtain ⟨raw, span, rfl, hclear⟩ := readInterpolation_cases hinterpolation
            exact .inr (.inr (.inr (.inl
              ⟨raw, span, h.1.symm, hclear, Cursor.startsWith_iff.1 hbraces⟩)))
          · simp at h
        · rename_i hbraces
          refine .inr (.inr (.inr (.inr ⟨?_, Except.ok.inj h⟩)))
          simp only [Cursor.startsWith, Bool.not_eq_true] at hclosing hcomment helement hbraces
          simp only [startsMarkup, hclosing, hcomment, helement, hbraces, Bool.or_self]

/-- Text that is read goes up to markup, and holds none. -/
theorem readText_cases {c after : Cursor} {event : Event} (hmarkup : startsMarkup c.rest = false)
    (h : readText c = (some event, after)) :
    ∃ content span, event = .complete (.text content span) ∧ Text.allBlank content = false ∧
      (after.rest = [] ∨ startsMarkup after.rest = true) ∧
      ∀ u, u ≠ [] → u <:+ content → startsMarkup (u ++ after.rest) = false := by
  obtain ⟨k, t⟩ := c
  cases t with
  | nil => simp [readText, textNode?, Text.allBlank, plainText] at h
  | cons d t =>
    obtain ⟨rest, ht, hrest, hinside⟩ := plainText_spec t
    simp only [readText, List.drop_succ_cons, List.drop_zero, List.take_succ_cons, List.take_zero,
      List.singleton_append, Prod.mk.injEq, Option.map_eq_some_iff, textNode?] at h
    obtain ⟨⟨node, hnode, hevent⟩, hafter⟩ := h
    split at hnode
    · simp at hnode
    · rename_i hblank
      simp only [Option.some.injEq] at hnode
      have hafter' : after.rest = rest := by
        rw [← hafter, Cursor.advance_rest, Nat.add_comm, List.drop_succ_cons]
        nth_rewrite 2 [ht]
        exact List.drop_left
      subst hnode hevent
      refine ⟨_, _, rfl, by simpa using hblank, by rwa [hafter'], ?_⟩
      intro u hu hsuffix
      rw [hafter']
      cases List.suffix_cons_iff.1 hsuffix with
      | inl whole =>
        rw [whole, List.cons_append, ← ht]
        exact hmarkup
      | inr later => exact hinside u hu later

/-! ### All events -/

/-- The event that starts with markup can follow a text that ends before it. -/
theorem seam_of_read {c after : Cursor} {event : Option Event} {content : Text} (span : Span)
    (hmarkup : startsMarkup c.rest = true)
    (hinside : ∀ u, u ≠ [] → u <:+ content → startsMarkup (u ++ c.rest) = false)
    (h : read c = .ok (event, after)) :
    ∃ next, event = some next ∧ Seam (.complete (.text content span)) next := by
  obtain ⟨_, _, _, rfl⟩ | ⟨_, _, rfl, -⟩ | ⟨_, _, -, -, rfl | rfl⟩ | ⟨_, _, rfl, -, rest, hrest⟩ |
    ⟨htext, -⟩ := read_cases h
  · exact ⟨_, rfl, trivial⟩
  · exact ⟨_, rfl, trivial⟩
  · exact ⟨_, rfl, trivial⟩
  · exact ⟨_, rfl, trivial⟩
  · refine ⟨_, rfl, fun hlast => ?_⟩
    obtain ⟨before, rfl⟩ := List.getLast?_eq_some_iff.1 hlast
    have hbrace := hinside ['\x7b'] (by simp) (List.suffix_append _ _)
    rw [← hrest, Bool.eq_false_iff] at hbrace
    exact hbrace (startsMarkup_cons_cons.2 (.inl ⟨rfl, rfl⟩))
  · simp [hmarkup] at htext

theorem seam_of_scan {c : Cursor} {content : Text} (span : Span)
    (hmarkup : c.rest = [] ∨ startsMarkup c.rest = true)
    (hinside : ∀ u, u ≠ [] → u <:+ content → startsMarkup (u ++ c.rest) = false) :
    ∀ next ∈ (scan c).head?, Seam (.complete (.text content span)) next := by
  intro next hnext
  by_cases hend : c.rest = []
  · simp [scan_of_end hend] at hnext
  cases hread : read c with
  | error fault =>
    rw [scan_of_error hend hread, List.head?_cons, Option.mem_some_iff] at hnext
    rw [← hnext]
    trivial
  | ok found =>
    obtain ⟨event, after⟩ := found
    obtain ⟨first, rfl, hseam⟩ := seam_of_read span (hmarkup.resolve_left hend) hinside hread
    rw [scan_of_read hend hread, Option.toList_some, List.cons_append, List.head?_cons,
      Option.mem_some_iff] at hnext
    rwa [← hnext]

/-- An event that is read is well formed, and can stand before those after it. -/
theorem read_parsed {c after : Cursor} {event : Event} (h : read c = .ok (some event, after)) :
    event.Parsed ∧ ∀ next ∈ (scan after).head?, Seam event next := by
  obtain ⟨_, _, _, heq⟩ | ⟨_, _, heq, hclear⟩ | ⟨_, _, hnamed, hnone, heq | heq⟩ |
    ⟨_, _, heq, hclear, -⟩ | ⟨hmarkup, htext⟩ := read_cases h
  · cases heq
    exact ⟨trivial, fun _ _ => trivial⟩
  · cases heq
    exact ⟨.comment hclear, fun next _ => by cases next <;> trivial⟩
  · cases heq
    exact ⟨hnamed, fun _ _ => trivial⟩
  · cases heq
    refine ⟨.element hnamed ?_ ?_, fun next _ => by cases next <;> trivial⟩
    · intro hraw
      simp [hnone hraw]
    · intro hraw
      simp [hnone hraw]
  · cases heq
    exact ⟨.expression hclear, fun next _ => by cases next <;> trivial⟩
  · obtain ⟨content, span, rfl, hblank, hrest, hinside⟩ := readText_cases hmarkup htext
    refine ⟨.text hblank ?_, seam_of_scan span hrest hinside⟩
    -- Markup inside the content would still be markup with the rest of the source behind it.
    intro u hu
    cases hstarts : startsMarkup u with
    | false => rfl
    | true =>
      have hne : u ≠ [] := by
        rintro rfl
        simp [startsMarkup, startsElement] at hstarts
      rw [← hinside u hne ((List.mem_tails u content).1 hu)]
      exact (startsMarkup_append_of_startsMarkup _ hstarts).symm

/-- All events of a source are well formed, and neighbours can follow each other. -/
theorem scan_parsed (c : Cursor) : (∀ event ∈ scan c, event.Parsed) ∧ (scan c).IsChain Seam := by
  induction c using scan_induction with
  | stop c hend => simp [scan_of_end hend]
  | failed c fault hend hread => simp [scan_of_error hend hread, Parsed]
  | next c event after hend hread ih =>
    rw [scan_of_read hend hread]
    cases event with
    | none => exact ih
    | some event =>
      obtain ⟨hparsed, hseam⟩ := read_parsed hread
      simp only [Option.toList_some, List.cons_append, List.nil_append, List.mem_cons,
        forall_eq_or_imp, List.isChain_cons]
      exact ⟨⟨hparsed, ih.1⟩, hseam, ih.2⟩

end Event

/-! ### The tree -/

/-- Nodes that stand one after another, the nearest first. -/
structure Siblings (nodes : List Node) : Prop where
  parsed : ∀ node ∈ nodes, node.Parsed
  seams : nodes.IsChain (flip Node.Seam)

namespace Siblings

theorem nil : Siblings [] := ⟨by simp, .nil⟩

theorem cons {node : Node} {nodes : List Node} (h : Siblings nodes) (hnode : node.Parsed)
    (hseam : ∀ before ∈ nodes.head?, Node.Seam before node) : Siblings (node :: nodes) := by
  constructor
  · simpa using ⟨hnode, h.parsed⟩
  · exact List.isChain_cons.2 ⟨hseam, h.seams⟩

/-- An open element that ends with these children. -/
theorem element {nodes : List Node} (h : Siblings nodes) {head : Element} (hnamed : head.Named) :
    (Node.element head nodes.reverse).Parsed := by
  refine .element hnamed (fun _ node hnode => h.parsed node (List.mem_reverse.1 hnode)) fun _ => ?_
  rw [List.isChain_reverse]
  exact h.seams

end Siblings

theorem seam_element (node : Node) (head : Element) (children : List Node) :
    Node.Seam node (.element head children) := by
  cases node <;> trivial

/-- The nodes that well-formed events make are well formed, if those before them are. -/
theorem build_parsed {events : List Event} {nodes : List Node} {frames : List Frame}
    {result : List Node} (h : build events nodes frames = .ok result)
    (hevents : ∀ event ∈ events, event.Parsed) (hchain : events.IsChain Event.Seam)
    (hnodes : Siblings nodes)
    (hnext : ∀ node ∈ nodes.head?, ∀ event ∈ events.head?, Event.Seam (.complete node) event)
    (hframes : ∀ frame ∈ frames, frame.head.Named ∧ Siblings frame.before) :
    ∀ node ∈ result, node.Parsed := by
  fun_induction build events nodes frames with
  | case1 nodes =>
    cases h
    intro node hnode
    exact hnodes.parsed node (List.mem_reverse.1 hnode)
  | case2 => cases h
  | case3 => cases h
  | case4 node events nodes frames ih =>
    rw [List.isChain_cons] at hchain
    simp only [List.mem_cons, forall_eq_or_imp] at hevents
    refine ih h hevents.2 hchain.2 (hnodes.cons hevents.1 ?_) ?_ hframes
    · exact fun before hbefore => hnext before hbefore _ rfl
    · simpa using hchain.1
  | case5 head events nodes frames ih =>
    rw [List.isChain_cons] at hchain
    simp only [List.mem_cons, forall_eq_or_imp] at hevents
    refine ih h hevents.2 hchain.2 .nil (by simp) ?_
    simpa using ⟨⟨hevents.1, hnodes⟩, hframes⟩
  | case6 => cases h
  | case7 span stop events nodes frame frames head ih =>
    rw [List.isChain_cons] at hchain
    simp only [List.mem_cons, forall_eq_or_imp] at hevents hframes
    -- The element that ends here may stand after any node and before any event.
    refine ih h hevents.2 hchain.2 (hframes.1.2.cons (hnodes.element hframes.1.1) ?_) ?_ hframes.2
    · exact fun before _ => seam_element before _ _
    · simp only [List.head?_cons, Option.mem_some_iff, forall_eq']
      intro event _
      cases event <;> trivial
  | case8 => cases h

/-- The root is one of the nodes, and an element. -/
theorem root_cases {size : Nat} {found : Option Node} {nodes : List Node} {node : Node}
    (h : root size found nodes = .ok node) :
    found = some node ∨ node ∈ nodes ∧ ∃ head children, node = .element head children := by
  fun_induction root size found nodes with
  | case1 => cases h
  | case2 => exact .inl (by cases h; rfl)
  | case3 found content span nodes ih =>
    obtain hfound | ⟨hmem, helement⟩ := ih h
    · exact .inl hfound
    · exact .inr ⟨List.mem_cons_of_mem _ hmem, helement⟩
  | case4 head children nodes ih =>
    obtain hfound | ⟨hmem, helement⟩ := ih h
    · cases hfound
      exact .inr ⟨List.mem_cons_self .., head, children, rfl⟩
    · exact .inr ⟨List.mem_cons_of_mem _ hmem, helement⟩
  | case5 => cases h
  | case6 => cases h
  | case7 => cases h

/-- What is read is an element. -/
theorem exists_element_of_read {source : Text} {node : Node} (h : Template.read source = .ok node) :
    ∃ head children, node = .element head children := by
  unfold Template.read at h
  split at h
  · cases h
  · obtain hfound | ⟨-, helement⟩ := root_cases h
    · cases hfound
    · exact helement

/-- What is read is a well-formed element. -/
theorem parsed_of_read {source : Text} {node : Node} (h : readPassed source = .ok node) :
    node.Parsed ∧ ∃ head children, node = .element head children := by
  unfold readPassed at h
  split at h
  · cases h
  · rename_i nodes hbuild
    obtain ⟨hevents, hchain⟩ := Event.scan_parsed (.start source)
    have hparsed := build_parsed hbuild hevents hchain .nil (by simp) (by simp)
    obtain hfound | ⟨hmem, helement⟩ := root_cases h
    · cases hfound
    · exact ⟨hparsed node hmem, helement⟩

end Template

end Wxml
