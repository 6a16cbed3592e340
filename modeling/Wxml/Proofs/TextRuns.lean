import Wxml.Proofs.ComponentPlaces
import Wxml.Proofs.Coverage
import Wxml.Proofs.Parsed

/-!
# Runs of text

The content of an element is markup (elements, interpolations and comments) and runs of text between
it.  `TextRun` says what a run is, from the source and the places of the markup alone, and
`text_mem_iff_of_textRun` what becomes of it: a run is a text node unless it is blank, and a blank
one leaves nothing, whatever stands on either side of it.

`Filled` describes the content piece by piece, in the order in which it was read; a run is never
followed by another.  Each event adds a piece (`Event.read_piece`), and `build_scan_filled` carries
this through all events of a source.
-/

namespace Wxml

/-- Whether a node is anything but text. -/
def Node.isMarkup : Node → Bool
  | .text _ _ => false
  | _ => true

/-- Whether a node is an interpolation. -/
def Node.isInterpolation : Node → Bool
  | .expression _ _ => true
  | _ => false

/-- The nodes right inside a node. -/
def Node.children : Node → List Node
  | .element _ children => children
  | _ => []

/-- Where the markup among some nodes stands. -/
def Node.markupSpans (nodes : List Node) : List Span := (nodes.filter isMarkup).map span

theorem Node.mem_markupSpans {nodes : List Node} {mark : Span} :
    mark ∈ markupSpans nodes ↔ ∃ node ∈ nodes, node.isMarkup = true ∧ node.span = mark := by
  simp [markupSpans, and_assoc]

namespace Template

theorem mem_textNode? {run : Text} {span : Span} {node : Node} :
    node ∈ (textNode? run span).toList ↔ node = .text run span ∧ Text.allBlank run = false := by
  unfold textNode?
  split <;> simp_all

theorem markupSpans_append_textNode? (nodes : List Node) (run : Text) (span : Span) :
    Node.markupSpans (nodes ++ (textNode? run span).toList) = Node.markupSpans nodes := by
  unfold textNode?
  split <;> simp [Node.markupSpans, Node.isMarkup]

/-! ### Runs in a content -/

/-- A run of text in a content that goes from `content` to `close` and whose markup stands at
`marks`.  It cannot be made longer: on each side is markup or an end of the content. -/
structure TextRun (source : Text) (marks : List Span) (content close : Nat) (run : Text)
    (span : Span) : Prop where
  covers : span.Covers source run
  notEmpty : run ≠ []
  starts : span.start = content ∨ ∃ mark ∈ marks, mark.stop = span.start
  stops : span.stop = close ∨ ∃ mark ∈ marks, mark.start = span.stop
  clear : ∀ mark ∈ marks, mark.Disjoint span

/-- Markup and runs of text side by side from one offset to another; a blank run is no node.  The
flag tells whether a run can follow, which it cannot after another run. -/
inductive Filled (source : Text) (a : Nat) : List Node → Nat → Bool → Prop
  | nothing : Filled source a [] a true
  | markup {nodes : List Node} {node : Node} {b d : Nat} {fresh : Bool}
      (before : Filled source a nodes b fresh) (isMarkup : node.isMarkup = true)
      (span : node.span = ⟨b, d⟩) (size : b < d) : Filled source a (nodes ++ [node]) d true
  | text {nodes : List Node} {run : Text} {b d : Nat} (before : Filled source a nodes b true)
      (notEmpty : run ≠ []) (covers : (⟨b, d⟩ : Span).Covers source run) :
      Filled source a (nodes ++ (textNode? run ⟨b, d⟩).toList) d false

namespace Filled

variable {source : Text} {nodes : List Node} {a b : Nat} {fresh : Bool}

theorem le (h : Filled source a nodes b fresh) : a ≤ b := by
  induction h with
  | nothing => exact Nat.le_refl a
  | markup before isMarkup span size ih => omega
  | text before notEmpty covers ih => exact ih.trans covers.start_le

theorem bounds (h : Filled source a nodes b fresh) :
    ∀ node ∈ nodes,
      a ≤ node.span.start ∧ node.span.start < node.span.stop ∧ node.span.stop ≤ b := by
  induction h with
  | nothing => simp
  | @markup nodes node b d fresh before isMarkup span size ih =>
    intro other hother
    have hle := before.le
    rcases List.mem_append.1 hother with hbefore | hlast
    · have := ih other hbefore
      omega
    · rw [List.mem_singleton.1 hlast, span]
      exact ⟨hle, size, Nat.le_refl d⟩
  | @text nodes run b d before notEmpty covers ih =>
    intro other hother
    have hle := before.le
    have hsize : b < d := covers.start_lt notEmpty
    rcases List.mem_append.1 hother with hbefore | hlast
    · have := ih other hbefore
      omega
    · rw [(mem_textNode?.1 hlast).1]
      exact ⟨hle, hsize, Nat.le_refl d⟩

theorem bounds_mark (h : Filled source a nodes b fresh) {mark : Span}
    (hmark : mark ∈ Node.markupSpans nodes) :
    a ≤ mark.start ∧ mark.start < mark.stop ∧ mark.stop ≤ b := by
  obtain ⟨node, hnode, -, rfl⟩ := Node.mem_markupSpans.1 hmark
  exact h.bounds node hnode

/-- Where a run can follow, the content begins or markup ends. -/
theorem border (h : Filled source a nodes b true) :
    b = a ∨ ∃ mark ∈ Node.markupSpans nodes, mark.stop = b := by
  cases h with
  | nothing => exact .inl rfl
  | @markup nodes node b d fresh before isMarkup span size =>
    refine .inr ⟨node.span, Node.mem_markupSpans.2 ⟨node, by simp, isMarkup, rfl⟩, ?_⟩
    rw [span]

theorem bounds_textRun {run : Text} {span : Span} (h : Filled source a nodes b fresh)
    (hrun : TextRun source (Node.markupSpans nodes) a b run span) :
    a ≤ span.start ∧ span.start < span.stop ∧ span.stop ≤ b := by
  have hle := h.le
  refine ⟨?_, hrun.covers.start_lt hrun.notEmpty, ?_⟩
  · rcases hrun.starts with hstart | ⟨mark, hmark, hstart⟩
    · exact hstart.ge
    · have := h.bounds_mark hmark
      omega
  · rcases hrun.stops with hstop | ⟨mark, hmark, hstop⟩
    · exact hstop.le
    · have := h.bounds_mark hmark
      omega

/-- No run goes across a place where a run can follow, and none ends there. -/
theorem before_or_after {span : Span} (h : Filled source a nodes b true) (hstart : a ≤ span.start)
    (hclear : ∀ mark ∈ Node.markupSpans nodes, mark.Disjoint span) :
    span.stop < b ∨ b ≤ span.start := by
  rcases h.border with hempty | ⟨mark, hmark, hend⟩
  · omega
  · have hsize := (h.bounds_mark hmark).2.1
    rcases hclear mark hmark with hbefore | hafter
    · exact .inr (hend ▸ hbefore)
    · have : span.stop ≤ mark.start := hafter
      omega

end Filled

section

variable {source run : Text} {span : Span} {nodes : List Node} {node : Node} {a b d : Nat}

/-- The runs before markup are those of the content that ends there. -/
theorem textRun_markup_iff (hmarkup : node.isMarkup = true) (hplace : node.span = ⟨b, d⟩)
    (hsize : b < d) (hstart : span.start < b) (hstop : span.stop ≤ b) :
    TextRun source (Node.markupSpans (nodes ++ [node])) a d run span ↔
      TextRun source (Node.markupSpans nodes) a b run span := by
  have hmarks : Node.markupSpans (nodes ++ [node]) = Node.markupSpans nodes ++ [⟨b, d⟩] := by
    simp [Node.markupSpans, hmarkup, hplace]
  rw [hmarks]
  constructor
  · rintro ⟨hcovers, hne, hstarts, hstops, hclear⟩
    refine ⟨hcovers, hne, ?_, ?_, fun mark hmark => hclear mark (List.mem_append_left _ hmark)⟩
    · refine hstarts.imp_right ?_
      rintro ⟨mark, hmark, hend⟩
      rcases List.mem_append.1 hmark with hmark | hlast
      · exact ⟨mark, hmark, hend⟩
      · rw [List.mem_singleton.1 hlast] at hend
        simp only at hend
        omega
    · rcases hstops with hborder | ⟨mark, hmark, hend⟩
      · omega
      · rcases List.mem_append.1 hmark with hmark | hlast
        · exact .inr ⟨mark, hmark, hend⟩
        · rw [List.mem_singleton.1 hlast] at hend
          exact .inl hend.symm
  · rintro ⟨hcovers, hne, hstarts, hstops, hclear⟩
    refine ⟨hcovers, hne, ?_, .inr ?_, ?_⟩
    · refine hstarts.imp_right ?_
      rintro ⟨mark, hmark, hend⟩
      exact ⟨mark, List.mem_append_left _ hmark, hend⟩
    · rcases hstops with hborder | ⟨mark, hmark, hend⟩
      · exact ⟨⟨b, d⟩, by simp, hborder.symm⟩
      · exact ⟨mark, List.mem_append_left _ hmark, hend⟩
    · intro mark hmark
      rcases List.mem_append.1 hmark with hmark | hlast
      · exact hclear mark hmark
      · rw [List.mem_singleton.1 hlast]
        exact .inr hstop

/-- The runs before the last one are those of the content that ends there. -/
theorem textRun_text_iff (h : Filled source a nodes b true) (hsize : b < d)
    (hstop : span.stop ≤ b) :
    TextRun source (Node.markupSpans nodes) a d run span ↔
      TextRun source (Node.markupSpans nodes) a b run span := by
  constructor
  · rintro ⟨hcovers, hne, hstarts, hstops, hclear⟩
    refine ⟨hcovers, hne, hstarts, .inr (hstops.resolve_left ?_), hclear⟩
    omega
  · intro hrun
    obtain ⟨hstart, hlt, -⟩ := h.bounds_textRun hrun
    have hends := h.before_or_after hstart hrun.clear
    refine ⟨hrun.covers, hrun.notEmpty, hrun.starts, .inr (hrun.stops.resolve_left ?_), hrun.clear⟩
    omega

/-- A run that ends later than where a run can follow is the one that follows. -/
theorem start_of_textRun (h : Filled source a nodes b true) (hstop : b < span.stop)
    (hrun : TextRun source (Node.markupSpans nodes) a d run span) : span.start = b := by
  have hle := h.le
  rcases hrun.starts with hstart | ⟨mark, hmark, hstart⟩
  · have := h.before_or_after hstart.ge hrun.clear
    omega
  · have hbounds := h.bounds_mark hmark
    have := h.before_or_after (by omega) hrun.clear
    omega

end

namespace Filled

variable {source : Text} {nodes : List Node} {a b : Nat} {fresh : Bool}

/-- Every text node is a run, and not a blank one. -/
theorem textRun_of_mem (h : Filled source a nodes b fresh) {run : Text} {span : Span}
    (hmem : .text run span ∈ nodes) :
    TextRun source (Node.markupSpans nodes) a b run span ∧ Text.allBlank run = false := by
  induction h with
  | nothing => simp at hmem
  | @markup nodes node b d fresh before isMarkup place size ih =>
    have hmem' : .text run span ∈ nodes := by
      rcases List.mem_append.1 hmem with hbefore | hlast
      · exact hbefore
      · rw [← List.mem_singleton.1 hlast] at isMarkup
        cases isMarkup
    obtain ⟨hrun, hblank⟩ := ih hmem'
    obtain ⟨-, hlt, hstop⟩ := before.bounds_textRun hrun
    exact ⟨(textRun_markup_iff isMarkup place size (by omega) hstop).2 hrun, hblank⟩
  | @text nodes written b d before notEmpty covers ih =>
    rw [markupSpans_append_textNode?]
    rcases List.mem_append.1 hmem with hbefore | hlast
    · obtain ⟨hrun, hblank⟩ := ih hbefore
      have hstop := (before.bounds_textRun hrun).2.2
      exact ⟨(textRun_text_iff before (covers.start_lt notEmpty) hstop).2 hrun, hblank⟩
    · obtain ⟨heq, hblank⟩ := mem_textNode?.1 hlast
      cases heq
      refine ⟨⟨covers, notEmpty, before.border, .inl rfl, ?_⟩, hblank⟩
      intro mark hmark
      exact .inl (before.bounds_mark hmark).2.2

/-- A run that is not blank is a text node, and no other node stands where it does. -/
theorem spec_of_textRun (h : Filled source a nodes b fresh) {run : Text} {span : Span}
    (hrun : TextRun source (Node.markupSpans nodes) a b run span) :
    (Text.allBlank run = false → .text run span ∈ nodes) ∧
      ∀ node ∈ nodes, node = .text run span ∨ node.span.Disjoint span := by
  induction h with
  | nothing =>
    obtain ⟨hstart, hlt, hstop⟩ := Filled.nothing.bounds_textRun hrun
    omega
  | @markup nodes node b d fresh before isMarkup place size ih =>
    obtain ⟨-, hlt, hstop⟩ := (before.markup isMarkup place size).bounds_textRun hrun
    -- The new markup is the last piece, so the run stands before it.
    have hbefore : span.stop ≤ b := by
      rcases hrun.clear node.span (Node.mem_markupSpans.2 ⟨node, by simp, isMarkup, rfl⟩) with
        hbefore | hafter
      · rw [place] at hbefore
        have : d ≤ span.start := hbefore
        omega
      · rwa [place] at hafter
    obtain ⟨hkept, hothers⟩ :=
      ih ((textRun_markup_iff isMarkup place size (by omega) hbefore).1 hrun)
    refine ⟨fun hblank => List.mem_append_left _ (hkept hblank), ?_⟩
    intro other hother
    rcases List.mem_append.1 hother with hother | hlast
    · exact hothers other hother
    · rw [List.mem_singleton.1 hlast, place]
      exact .inr (.inr hbefore)
  | @text nodes written b d before notEmpty covers ih =>
    obtain ⟨-, -, hstop⟩ := (before.text notEmpty covers).bounds_textRun hrun
    rw [markupSpans_append_textNode?] at hrun
    by_cases hbefore : span.stop ≤ b
    · obtain ⟨hkept, hothers⟩ :=
        ih ((textRun_text_iff before (covers.start_lt notEmpty) hbefore).1 hrun)
      refine ⟨fun hblank => List.mem_append_left _ (hkept hblank), ?_⟩
      intro other hother
      rcases List.mem_append.1 hother with hother | hlast
      · exact hothers other hother
      · rw [(mem_textNode?.1 hlast).1]
        exact .inr (.inr hbefore)
    · have hspan : span = ⟨b, d⟩ := by
        have hstart := start_of_textRun before (by omega) hrun
        have hend : span.stop = d := by
          rcases hrun.stops with hend | ⟨mark, hmark, hend⟩
          · exact hend
          · have := before.bounds_mark hmark
            omega
        rw [← hstart, ← hend]
      subst hspan
      have hsame := hrun.covers.unique covers
      subst hsame
      refine ⟨fun hblank => List.mem_append_right _ (mem_textNode?.2 ⟨rfl, hblank⟩), ?_⟩
      intro other hother
      rcases List.mem_append.1 hother with hother | hlast
      · exact .inr (.inl (before.bounds other hother).2.2)
      · exact .inl (mem_textNode?.1 hlast).1

end Filled

/-- A text from one offset to another is a content of its own. -/
theorem exists_filled_textNode? {source run : Text} {a b : Nat}
    (h : (⟨a, b⟩ : Span).Covers source run) :
    ∃ fresh, Filled source a (textNode? run ⟨a, b⟩).toList b fresh := by
  by_cases hempty : run = []
  · subst hempty
    have hstop : b = a := h.stop_eq
    subst hstop
    exact ⟨true, .nothing⟩
  · exact ⟨false, Filled.nothing.text hempty h⟩

end Template

/-! ### Elements -/

namespace Node

/-- An element stands in a source and its content is markup and runs of text. -/
def Filled (source : Text) : Node → Prop
  | .element head children =>
    ∃ inTag content close fresh, head.PlacedAt source children inTag content close ∧
      Template.Filled source content children close fresh
  | _ => True

/-- The elements of a tree have markup and runs of text as their content. -/
def AllFilled (source : Text) (node : Node) : Prop := ∀ inner ∈ node.subtree, inner.Filled source

theorem allFilled_of_leaf {source : Text} {node : Node} (hleaf : node.subtree = [node])
    (h : node.Filled source) : node.AllFilled source := by
  intro inner hinner
  rw [hleaf, List.mem_singleton] at hinner
  rwa [hinner]

theorem allFilled_of_childless {source : Text} {head : Element}
    (h : (Node.element head []).Placed source) : (Node.element head []).AllFilled source := by
  obtain ⟨inTag, content, close, hplaced⟩ := h
  obtain ⟨blanks, hcovers, hblank⟩ := hplaced.inside
  have hblank' : Text.allBlank blanks = true := List.all_eq_true.2 hblank
  obtain ⟨fresh, hfilled⟩ := Template.exists_filled_textNode? hcovers
  rw [Template.textNode?, if_pos hblank'] at hfilled
  exact forall_mem_subtree_element ⟨inTag, content, close, fresh, hplaced, hfilled⟩ (by simp)

theorem Placed.start_lt {source : Text} {node : Node} (h : node.Placed source)
    (hmarkup : node.isMarkup = true) : node.span.start < node.span.stop := by
  cases node with
  | element head children =>
    obtain ⟨inTag, content, close, hplaced⟩ := h
    obtain ⟨rest, hcovers⟩ := hplaced.whole
    exact hcovers.start_lt (by simp)
  | expression raw span => exact Span.Covers.start_lt h (by simp)
  | text content span => cases hmarkup
  | comment content span => exact Span.Covers.start_lt h (by simp)

end Node

namespace Template

namespace Event

variable {source : Text} {c after : Cursor}

theorem readElement_filled {node : Node} (hin : c.In source) (hc : c.rest.head? = some '<')
    (h : readElement c = .ok (.complete node, after)) :
    node.isMarkup = true ∧ node.AllFilled source := by
  have houtcome := readElement_outcome hin hc
  rw [h] at houtcome
  have hplaced : node.Placed source := houtcome.2.2 node node.mem_subtree_self
  have htag := readTag_outcome hin hc
  unfold readElement at h
  split at h
  · cases h
  · rename_i head opening hfound
    rw [hfound] at htag
    obtain ⟨hopening, hspan, hclear, inTag, hopened⟩ := htag
    simp only at h
    split at h
    · cases h
      exact ⟨rfl, Node.allFilled_of_childless hplaced⟩
    · rename_i hself
      split at h
      · cases h
        exact ⟨rfl, Node.allFilled_of_childless hplaced⟩
      · rename_i hvoid
        split at h
        · rename_i hraw
          split at h
          · cases h
          · rename_i hend
            cases h
            obtain ⟨-, hat⟩ := placedAt_rawText (fun hbare => hbare.elim hself hvoid) hraw hclear
              hopened hopening (by simpa [Cursor.atEnd] using hend)
            obtain ⟨fresh, hfilled⟩ :=
              exists_filled_textNode? (hopening.covers (opening.reads_body head.tag))
            rw [hspan] at hat
            refine ⟨rfl, Node.forall_mem_subtree_element ⟨_, _, _, _, hat, hfilled⟩ ?_⟩
            intro child hchild
            rw [(mem_textNode?.1 hchild).1]
            exact Node.allFilled_of_leaf rfl trivial
        · cases h

/-- The text ahead, up to markup. -/
theorem reads_readText (hc : c.rest ≠ []) :
    ∃ run, run ≠ [] ∧ c.Reads run (readText c).2 ∧
      (readText c).1 = (textNode? run ((readText c).2.spanFrom c.offset)).map .complete ∧
      ((readText c).2.rest = [] ∨ startsMarkup (readText c).2.rest = true) := by
  obtain ⟨d, t, ht⟩ := List.exists_cons_of_ne_nil hc
  obtain ⟨rest, hrest, hmarkup, -⟩ := plainText_spec t
  have hcut : c.rest = (d :: plainText t) ++ rest := by rw [ht, List.cons_append, ← hrest]
  have hreads := Cursor.reads_advance_length hcut
  have hafter : (c.advance (d :: plainText t).length).rest = rest := by
    rw [Cursor.advance_rest, hcut]
    exact List.drop_left
  refine ⟨d :: plainText t, by simp, ?_⟩
  simp only [readText, ht, List.drop_succ_cons, List.drop_zero, List.take_succ_cons, List.take_zero,
    List.singleton_append, true_and]
  rw [List.length_cons, Nat.add_comm] at hreads hafter
  exact ⟨hreads, by rwa [hafter]⟩

/-- What is read in one step: markup, or a run of text up to the next markup. -/
inductive Piece (source : Text) (c after : Cursor) : Option Event → Prop
  | markup {event : Event}
      (filled : ∀ node, event = .complete node → node.isMarkup = true ∧ node.AllFilled source) :
      Piece source c after (some event)
  | text {run : Text} (notEmpty : run ≠ [])
      (covers : (⟨c.offset, after.offset⟩ : Span).Covers source run)
      (starts : startsMarkup c.rest = false)
      (stops : after.rest = [] ∨ startsMarkup after.rest = true) :
      Piece source c after ((textNode? run ⟨c.offset, after.offset⟩).map .complete)

/-- Each step reads a piece. -/
theorem read_piece {event : Option Event} (hin : c.In source) (hc : c.rest ≠ [])
    (h : read c = .ok (event, after)) : Piece source c after event := by
  rw [read_eq] at h
  split at h
  · cases h
    exact .markup (by simp [readClosing])
  · rename_i hclosing
    split at h
    · split at h
      · cases h
        refine .markup ?_
        rintro node ⟨⟩
        exact ⟨rfl, Node.allFilled_of_leaf rfl trivial⟩
      · cases h
    · rename_i hcomment
      split at h
      · rename_i hstarts
        obtain ⟨d, rest, hrest, -⟩ := startsElement_iff.1 hstarts
        split at h
        · rename_i found last hread
          cases h
          refine .markup ?_
          rintro node rfl
          exact readElement_filled hin (by rw [hrest]; rfl) hread
        · cases h
      · rename_i helement
        split at h
        · split at h
          · rename_i found last hread
            cases h
            obtain ⟨raw, span, rfl, -⟩ := readInterpolation_cases hread
            refine .markup ?_
            rintro node ⟨⟩
            exact ⟨rfl, Node.allFilled_of_leaf rfl trivial⟩
          · cases h
        · rename_i hbraces
          have hmarkup : startsMarkup c.rest = false := by
            simp only [Cursor.startsWith, Bool.not_eq_true] at hclosing hcomment helement hbraces
            simp only [startsMarkup, hclosing, hcomment, helement, hbraces, Bool.or_self]
          obtain ⟨run, hne, hreads, hevent, hstops⟩ := reads_readText hc
          rw [Except.ok.inj h] at hreads hevent hstops
          simp only at hevent
          rw [hevent]
          exact .text hne (hin.covers hreads) hmarkup hstops

end Event

/-! ### All events -/

/-- The content of an element up to an offset, the nearest node first. -/
structure FilledRow (source : Text) (a : Nat) (nodes : List Node) (b : Nat) (fresh : Bool) :
    Prop where
  filled : Filled source a nodes.reverse b fresh
  inside : ∀ node ∈ nodes, node.AllFilled source

/-- Where the content of the innermost open element begins. -/
def contentStart : List Frame → Nat
  | [] => 0
  | frame :: _ => frame.head.span.stop

/-- The content before each open element. -/
def FramesFilled (source : Text) : List Frame → Prop
  | [] => True
  | frame :: frames =>
    (∃ fresh, FilledRow source (contentStart frames) frame.before frame.head.span.start fresh) ∧
      FramesFilled source frames

section

variable {source : Text} {nodes : List Node} {frames : List Frame} {a b d : Nat} {fresh : Bool}

theorem FilledRow.nothing (source : Text) (a : Nat) : FilledRow source a [] a true :=
  ⟨.nothing, by simp⟩

theorem FilledRow.markup {node : Node} (h : FilledRow source a nodes b fresh)
    (hmarkup : node.isMarkup = true) (hspan : node.span = ⟨b, d⟩) (hsize : b < d)
    (hnode : node.AllFilled source) : FilledRow source a (node :: nodes) d true where
  filled := by
    rw [List.reverse_cons]
    exact h.filled.markup hmarkup hspan hsize
  inside := List.forall_mem_cons.2 ⟨hnode, h.inside⟩

theorem FilledRow.text {run : Text} (h : FilledRow source a nodes b true) (hne : run ≠ [])
    (hcovers : (⟨b, d⟩ : Span).Covers source run) :
    FilledRow source a ((textNode? run ⟨b, d⟩).toList ++ nodes) d false where
  filled := by
    have hreverse : (textNode? run ⟨b, d⟩).toList.reverse = (textNode? run ⟨b, d⟩).toList := by
      cases textNode? run ⟨b, d⟩ <;> rfl
    rw [List.reverse_append, hreverse]
    exact h.filled.text hne hcovers
  inside := by
    intro node hnode
    rcases List.mem_append.1 hnode with hlast | hbefore
    · rw [(mem_textNode?.1 hlast).1]
      exact Node.allFilled_of_leaf rfl trivial
    · exact h.inside node hbefore

/-- The innermost open element ends, and is one more piece of the content around it. -/
theorem FilledRow.closed {frame : Frame} {last : Cursor} {fresh' : Bool}
    (h : FilledRow source frame.head.span.stop nodes b fresh)
    (hbefore : FilledRow source a frame.before frame.head.span.start fresh')
    (hprogress : Progress source nodes (frame :: frames) b) (hlast : last.In source)
    (hcloses : Closes source frame.head.tag b last.offset) :
    FilledRow source a
      (.element { frame.head with span := ⟨frame.head.span.start, last.offset⟩ } nodes.reverse ::
        frame.before) last.offset true := by
  obtain ⟨hrow, ⟨⟨inTag, hopened⟩, hbare, -, -⟩, -⟩ := hprogress
  have hplaced := Event.placedAt_of_ends hopened hlast hrow.tiles
    (fun hbare' => absurd hbare' hbare) (Event.ends_of_closes hcloses)
  have hsize : frame.head.span.start < last.offset := by
    obtain ⟨rest, hcovers⟩ := hplaced.whole
    exact hcovers.start_lt (by simp)
  refine hbefore.markup rfl rfl hsize ?_
  refine Node.forall_mem_subtree_element ⟨inTag, _, b, fresh, hplaced, h.filled⟩ ?_
  exact fun child hchild => h.inside child (List.mem_reverse.1 hchild)

theorem Progress.text {run : Text} {span : Span} (h : Progress source nodes frames a)
    (hevent : Event.PlacedOrBlank source a b ((textNode? run span).map .complete))
    (hb : Gap source isBlank b b) :
    Progress source ((textNode? run span).toList ++ nodes) frames b := by
  cases hnode : textNode? run span with
  | none =>
    rw [hnode] at hevent
    obtain ⟨-, hgap⟩ | ⟨found, hfound, -⟩ := hevent
    · exact h.gap hgap
    · cases hfound
  | some node =>
    rw [hnode] at hevent
    obtain ⟨hnone, -⟩ | ⟨found, hfound, hplaced⟩ := hevent
    · cases hnone
    · cases hfound
      exact h.complete hplaced hb

theorem build_textNode? (run : Text) (span : Span) (events : List Event) (nodes : List Node)
    (frames : List Frame) :
    build (((textNode? run span).map Event.complete).toList ++ events) nodes frames =
      build events ((textNode? run span).toList ++ nodes) frames := by
  cases textNode? run span <;> rfl

end

/-- The nodes that are read from a source have markup and runs of text as their content.  After a
run the cursor is at markup or at the end, so that no other run follows it. -/
theorem build_scan_filled {source : Text} (c : Cursor) (hin : c.In source) :
    ∀ {nodes result : List Node} {frames : List Frame} {fresh : Bool},
      Progress source nodes frames c.offset →
      FilledRow source (contentStart frames) nodes c.offset fresh → FramesFilled source frames →
      (fresh = false → c.rest = [] ∨ startsMarkup c.rest = true) →
      build (Event.scan c) nodes frames = .ok result → ∀ node ∈ result, node.AllFilled source := by
  induction c using Event.scan_induction with
  | stop c hend =>
    intro nodes result frames fresh hprogress hrow hframes hseam h
    rw [Event.scan_of_end hend] at h
    cases frames with
    | nil =>
      cases h
      exact fun node hnode => hrow.inside node (List.mem_reverse.1 hnode)
    | cons frame frames => cases h
  | failed c fault hend hread =>
    intro nodes result frames fresh hprogress hrow hframes hseam h
    rw [Event.scan_of_error hend hread] at h
    cases h
  | next c event after hend hread ih =>
    intro nodes result frames fresh hprogress hrow hframes hseam h
    rw [Event.scan_of_read hend hread] at h
    have hevent := Event.read_outcome hin hend
    rw [hread] at hevent
    obtain ⟨hafter, hevent⟩ := hevent
    have hgap := hafter.gap_self isBlank
    cases Event.read_piece hin hend hread with
    | @text run hne hcovers hstarts hstops =>
      have hfresh : fresh = true := by
        cases fresh with
        | true => rfl
        | false => simp [hend, hstarts] at hseam
      subst hfresh
      rw [build_textNode?] at h
      exact ih hafter (hprogress.text hevent hgap) (hrow.text hne hcovers) hframes
        (fun _ => hstops) h
    | @markup event hfilled =>
      obtain ⟨hnone, -⟩ | ⟨found, hfound, hplaced⟩ := hevent
      · cases hnone
      cases hfound
      rw [Option.toList_some, List.singleton_append] at h
      cases event with
      | complete node =>
        obtain ⟨hmarkup, hnode⟩ := hfilled node rfl
        have hsize := (hplaced.2 node node.mem_subtree_self).start_lt hmarkup
        rw [hplaced.1] at hsize
        exact ih hafter (hprogress.complete hplaced hgap)
          (hrow.markup hmarkup hplaced.1 hsize hnode) hframes (by simp) h
      | opened head =>
        have hrow' : FilledRow source (contentStart frames) nodes head.span.start fresh := by
          rw [hplaced.1]
          exact hrow
        have hinside : FilledRow source head.span.stop [] after.offset true := by
          rw [hplaced.1]
          exact .nothing source after.offset
        exact ih hafter (hprogress.opened hplaced hafter) hinside ⟨⟨fresh, hrow'⟩, hframes⟩
          (by simp) h
      | closed name span stop =>
        obtain ⟨rfl, -, hcloses⟩ := hplaced
        cases frames with
        | nil => cases h
        | cons frame frames =>
          by_cases hname : name = frame.head.tag
          · obtain ⟨⟨fresh', hbefore⟩, hframes⟩ := hframes
            rw [build, if_pos hname] at h
            have hcloses' := hname ▸ hcloses
            exact ih hafter (hprogress.closed hafter hcloses')
              (hrow.closed hbefore hprogress hafter hcloses') hframes (by simp) h
          · rw [build, if_neg hname] at h
            cases h
      | failed fault => cases h

/-- Every element of a tree that was read has markup and runs of text as its content. -/
theorem allFilled_of_read {source : Text} {root : Node} (h : readPassed source = .ok root) :
    root.AllFilled source := by
  unfold readPassed at h
  split at h
  · cases h
  · rename_i nodes hnodes
    have hin := Cursor.in_start source
    have hnothing : Progress source [] [] (Cursor.start source).offset :=
      ⟨hin.gap_self _, by simp⟩
    have hfilled := build_scan_filled _ hin hnothing (.nothing source 0) trivial (by simp) hnodes
    obtain hfound | ⟨hmem, -⟩ := root_cases h
    · cases hfound
    · exact hfilled root hmem

/-! ### Whole templates -/

/-- What becomes of the text in a template.  In the content of each element, the runs of text that
are not blank are its text nodes; where a blank run stands there is no node, also if the run is
beside an interpolation. -/
theorem text_mem_iff_of_textRun {source : Text} {root : Node}
    (hsize : Text.size source < Span.offsetLimit) (h : read source = .ok root) {head : Element}
    {children : List Node} (hmem : .element head children ∈ root.subtree) :
    ∃ inTag content close, head.PlacedAt source children inTag content close ∧
      (∀ run span, TextRun source (Node.markupSpans children) content close run span →
        (.text run span ∈ children ↔ Text.allBlank run = false) ∧
        (Text.allBlank run = true → ∀ child ∈ children, child.span.Disjoint span)) ∧
      ∀ run span, .text run span ∈ children →
        TextRun source (Node.markupSpans children) content close run span := by
  rw [read_eq_readPassed hsize] at h
  obtain ⟨inTag, content, close, fresh, hplaced, hfilled⟩ := allFilled_of_read h _ hmem
  refine ⟨inTag, content, close, hplaced, ?_, ?_⟩
  · intro run span hrun
    obtain ⟨hkept, hothers⟩ := hfilled.spec_of_textRun hrun
    have hiff : .text run span ∈ children ↔ Text.allBlank run = false :=
      ⟨fun htext => (hfilled.textRun_of_mem htext).2, hkept⟩
    refine ⟨hiff, fun hblank child hchild => (hothers child hchild).resolve_left ?_⟩
    rintro rfl
    rw [hiff.1 hchild] at hblank
    cases hblank
  · intro run span htext
    exact (hfilled.textRun_of_mem htext).1

/-- Blank runs between tags and beside interpolations, a run with blanks at its ends, and raw
text. -/
def runsSample : Text :=
  "<div> <b>x</b> \x7b\x7by\x7d\x7d z \x7b\x7bw\x7d\x7d\n<style> p </style></div>"

theorem text_mem_iff_of_textRun_sample :
    Text.size runsSample < Span.offsetLimit ∧
    ∃ root head children, read runsSample = .ok root ∧ .element head children ∈ root.subtree ∧
      children.map Node.span = [⟨6, 14⟩, ⟨15, 20⟩, ⟨20, 23⟩, ⟨23, 28⟩, ⟨29, 47⟩] ∧
      ∃ inTag content close, head.PlacedAt runsSample children inTag content close ∧
        (∀ run span, TextRun runsSample (Node.markupSpans children) content close run span →
          (.text run span ∈ children ↔ Text.allBlank run = false) ∧
          (Text.allBlank run = true → ∀ child ∈ children, child.span.Disjoint span)) ∧
        ∀ run span, .text run span ∈ children →
          TextRun runsSample (Node.markupSpans children) content close run span := by
  have hsome : ∃ root ∈ (read runsSample).toOption,
      root.children.map Node.span = [⟨6, 14⟩, ⟨15, 20⟩, ⟨20, 23⟩, ⟨23, 28⟩, ⟨29, 47⟩] := by
    decide +kernel
  have hsize : Text.size runsSample < Span.offsetLimit := by decide +kernel
  obtain ⟨root, hroot, hspans⟩ := hsome
  have hread : read runsSample = .ok root := eq_ok_of_toOption hroot
  obtain ⟨-, head, children, rfl⟩ := parsed_of_read (read_eq_readPassed hsize ▸ hread)
  have hmem := Node.mem_subtree_self (.element head children)
  exact ⟨hsize, _, head, children, hread, hmem, hspans, text_mem_iff_of_textRun hsize hread hmem⟩

/-- Two interpolations with a blank between them. -/
def gluedSample : Text := "<p>\x7b\x7ba\x7d\x7d \x7b\x7bb\x7d\x7d</p>"

/-- A blank run between two interpolations can be lost. -/
theorem exists_blank_run_lost :
    ∃ source root head children inTag content close run span,
      read source = .ok root ∧ .element head children ∈ root.subtree ∧
      head.PlacedAt source children inTag content close ∧
      TextRun source (Node.markupSpans children) content close run span ∧
      Text.allBlank run = true ∧
      (∃ node ∈ children, node.isInterpolation = true ∧ node.span.stop = span.start) ∧
      (∃ node ∈ children, node.isInterpolation = true ∧ node.span.start = span.stop) ∧
      ∀ place, .text run place ∉ root.subtree := by
  have hsome : ∃ root ∈ (read gluedSample).toOption,
      Node.markupSpans root.children = [⟨3, 8⟩, ⟨9, 14⟩] ∧
      (∃ node ∈ root.children, node.isInterpolation = true ∧ node.span.stop = 8) ∧
      (∃ node ∈ root.children, node.isInterpolation = true ∧ node.span.start = 9) ∧
      ∀ node ∈ root.subtree, node.isMarkup = true := by
    decide +kernel
  obtain ⟨root, hroot, hmarks, hbefore, hafter, hnoText⟩ := hsome
  have hread : read gluedSample = .ok root := eq_ok_of_toOption hroot
  have hpassed : read gluedSample = readPassed gluedSample :=
    read_eq_readPassed (by decide +kernel)
  obtain ⟨-, head, children, rfl⟩ := parsed_of_read (hpassed ▸ hread)
  have hmem := Node.mem_subtree_self (.element head children)
  obtain ⟨inTag, content, close, fresh, hplaced, -⟩ := allFilled_of_read (hpassed ▸ hread) _ hmem
  have hcovers : (⟨8, 9⟩ : Span).Covers gluedSample " " :=
    ⟨"<p>\x7b\x7ba\x7d\x7d", "\x7b\x7bb\x7d\x7d</p>", by decide, by decide, by decide⟩
  have hrun : TextRun gluedSample (Node.markupSpans children) content close " " ⟨8, 9⟩ := by
    rw [show Node.markupSpans children = _ from hmarks]
    exact ⟨hcovers, by decide, .inr ⟨⟨3, 8⟩, by simp, rfl⟩, .inr ⟨⟨9, 14⟩, by simp, rfl⟩,
      by simp [Span.Disjoint, Span.Before]⟩
  refine ⟨gluedSample, _, head, children, inTag, content, close, " ", ⟨8, 9⟩, hread, hmem, hplaced,
    hrun, by decide, hbefore, hafter, ?_⟩
  intro place htext
  cases hnoText _ htext

end Template

end Wxml
