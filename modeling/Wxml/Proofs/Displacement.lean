import Wxml.Proofs.Coverage
import Wxml.Proofs.Parsed

/-!
# Templates further on in a text

What is read of a template does not depend on where in a text it starts.  Moving a cursor moves the
spans of what is read from it and changes nothing else, for every reader from `Cursor.advance` up to
`Event.scan`, faults included.

Comments and blanks before a template are such a move.  `Template.read_append_of_preamble` says that
they move the whole tree by their size.
-/

namespace Wxml

/-! ### Moved cursors -/

namespace Cursor

variable (c : Cursor) (d : Nat)

/-- The cursor with `d` more bytes before it. -/
def shift : Cursor := ⟨c.offset + d, c.rest⟩

@[simp] theorem shift_offset : (c.shift d).offset = c.offset + d := rfl

@[simp] theorem shift_rest : (c.shift d).rest = c.rest := rfl

@[simp] theorem startsWith_shift (pattern : Text) :
    (c.shift d).startsWith pattern = c.startsWith pattern := rfl

@[simp] theorem peek?_shift : (c.shift d).peek? = c.peek? := rfl

@[simp] theorem atEnd_shift : (c.shift d).atEnd = c.atEnd := rfl

@[simp] theorem spanFrom_shift (start : Nat) :
    (c.shift d).spanFrom (start + d) = (c.spanFrom start).shift d := rfl

@[simp] theorem advance_shift (n : Nat) : (c.shift d).advance n = (c.advance n).shift d := by
  simp only [advance, shift, mk.injEq, and_true]
  omega

@[simp] theorem consume?_shift (pattern : Text) :
    (c.shift d).consume? pattern = (c.consume? pattern).map (·.shift d) := by
  rw [consume?, consume?, startsWith_shift, advance_shift]
  split <;> rfl

@[simp] theorem takeWhile_shift (p : Char → Bool) :
    (c.shift d).takeWhile p = ((c.takeWhile p).1, (c.takeWhile p).2.shift d) := by
  simp [takeWhile]

@[simp] theorem skipBlanks_shift : (c.shift d).skipBlanks = c.skipBlanks.shift d := by
  simp [skipBlanks]

@[simp] theorem takeUntil_shift (pattern : Text) :
    (c.shift d).takeUntil pattern = ((c.takeUntil pattern).1, (c.takeUntil pattern).2.shift d) := by
  simp [takeUntil]

@[simp] theorem skipTag_shift : (c.shift d).skipTag = c.skipTag.shift d := by
  simp only [skipTag, consume, takeUntil_shift, consume?_shift]
  cases (c.takeUntil ">").2.consume? ">" <;> rfl

@[simp] theorem name?_shift (head tail : Char → Bool) :
    (c.shift d).name? head tail = (c.name? head tail).map (Prod.map id (·.shift d)) := by
  simp only [name?, shift_rest, advance_shift]
  split
  · rfl
  · split <;> rfl

@[simp] theorem quoted?_shift :
    (c.shift d).quoted? = c.quoted?.map (Prod.map id (·.shift d)) := by
  simp only [quoted?, shift_rest, advance_shift]
  split
  · rfl
  · split
    · split <;> rfl
    · rfl

@[simp] theorem comment?_shift :
    (c.shift d).comment? = c.comment?.map (Prod.map id (·.shift d)) := by
  simp only [comment?, shift_rest, advance_shift]
  split
  · rfl
  · split <;> rfl

@[simp] theorem body_shift (tag : Text) :
    (c.shift d).body tag = ((c.body tag).1, (c.body tag).2.shift d) := by
  simp [body]

/-- The answer of a reader with everything in it moved: what was read by `f`, and a fault by `g`. -/
def shiftAnswer {ε α : Type} (d : Nat) (g : ε → ε) (f : α → α) :
    Except ε (α × Cursor) → Except ε (α × Cursor)
  | .ok (found, after) => .ok (f found, after.shift d)
  | .error fault => .error (g fault)

end Cursor

/-! ### Moved attributes -/

namespace Attribute

variable (c : Cursor) (d : Nat)

def shift (a : Attribute) : Attribute := { a with span := a.span.shift d }

@[simp] theorem shift_key (a : Attribute) : (a.shift d).key = a.key := rfl

def Unterminated.shift (u : Unterminated) : Unterminated := { u with span := u.span.shift d }

def Fault.shift : Fault → Fault
  | .unterminated u => .unterminated (u.shift d)
  | .duplicate key span => .duplicate key (span.shift d)

theorem atTagEnd_shift : atTagEnd (c.shift d) = atTagEnd c := rfl

theorem readValue_shift :
    readValue (c.shift d) = Cursor.shiftAnswer d (·.shift d) id (readValue c) := by
  simp only [readValue, Cursor.skipBlanks_shift, Cursor.consume?_shift]
  cases c.skipBlanks.consume? "=" with
  | none => rfl
  | some equals =>
    cases hquote : (equals.skipBlanks.peek?.map Cursor.isQuote).getD false with
    | true =>
      simp only [Option.map_some, Cursor.skipBlanks_shift, Cursor.peek?_shift, hquote, ↓reduceIte,
        Cursor.quoted?_shift]
      cases equals.skipBlanks.quoted? <;> rfl
    | false =>
      simp only [Option.map_some, Cursor.skipBlanks_shift, Cursor.peek?_shift, hquote,
        Bool.false_eq_true, ↓reduceIte, Cursor.unquoted, Cursor.takeWhile_shift]
      rfl

theorem read?_shift :
    read? (c.shift d) = (read? c).map (Cursor.shiftAnswer d (·.shift d) (·.shift d)) := by
  simp only [read?, Cursor.attributeName?, Cursor.name?_shift]
  cases c.name? Cursor.isAttributeHead Cursor.isAttributeChar with
  | none => rfl
  | some named =>
    simp only [Option.map_some, Prod.map, readValue_shift]
    cases readValue named.2 <;> rfl

theorem readDistinct_shift (seen : List Text) :
    readDistinct seen (c.shift d) =
      Cursor.shiftAnswer d (·.shift d) (List.map (·.shift d)) (readDistinct seen c) := by
  fun_induction readDistinct seen c with
  | case1 seen c hend =>
    rw [readDistinct_eq, Cursor.skipBlanks_shift, atTagEnd_shift, if_pos hend]
    rfl
  | case2 seen c hend hread ih =>
    rw [readDistinct_eq, Cursor.skipBlanks_shift, atTagEnd_shift, if_neg hend, read?_shift, hread,
      ← ih, ← Cursor.advance_shift]
    rfl
  | case3 seen c hend u hread =>
    rw [readDistinct_eq, Cursor.skipBlanks_shift, atTagEnd_shift, if_neg hend, read?_shift, hread]
    rfl
  | case4 seen c hend a after hread hseen =>
    rw [readDistinct_eq, Cursor.skipBlanks_shift, atTagEnd_shift, if_neg hend, read?_shift, hread]
    exact if_pos hseen
  | case5 seen c hend a after hread hseen more last hmore ih =>
    rw [hmore] at ih
    rw [readDistinct_eq, Cursor.skipBlanks_shift, atTagEnd_shift, if_neg hend, read?_shift, hread]
    simp only [Option.map_some, Cursor.shiftAnswer, shift_key, if_neg hseen, ih, List.map_cons]
  | case6 seen c hend a after hread hseen fault hfault ih =>
    rw [hfault] at ih
    rw [readDistinct_eq, Cursor.skipBlanks_shift, atTagEnd_shift, if_neg hend, read?_shift, hread]
    simp only [Option.map_some, Cursor.shiftAnswer, shift_key, if_neg hseen, ih]

end Attribute

/-! ### Moved events -/

def Element.shift (head : Element) (d : Nat) : Element :=
  ⟨head.tag, head.attributes.map (·.shift d), head.selfClosing, head.span.shift d,
    head.tagSpan.shift d⟩

@[simp] theorem Element.shift_tag (head : Element) (d : Nat) : (head.shift d).tag = head.tag := rfl

@[simp] theorem Element.shift_selfClosing (head : Element) (d : Nat) :
    (head.shift d).selfClosing = head.selfClosing := rfl

namespace Node

mutual

/-- A tree that stands `d` bytes further on. -/
def shift (d : Nat) : Node → Node
  | .element head children => .element (head.shift d) (shiftAll d children)
  | .expression raw span => .expression raw (span.shift d)
  | .text content span => .text content (span.shift d)
  | .comment content span => .comment content (span.shift d)

def shiftAll (d : Nat) : List Node → List Node
  | [] => []
  | node :: nodes => shift d node :: shiftAll d nodes

end

theorem shiftAll_eq_map (d : Nat) (nodes : List Node) : shiftAll d nodes = nodes.map (shift d) := by
  induction nodes with
  | nil => rfl
  | cons node nodes ih => rw [shiftAll, ih, List.map_cons]

end Node

namespace Template

variable (c : Cursor) (d : Nat)

def Fault.shift : Fault → Fault
  | .unclosedElement tag span => .unclosedElement tag (span.shift d)
  | .mismatchedClosingTag expected found span => .mismatchedClosingTag expected found (span.shift d)
  | .unterminatedComment span => .unterminatedComment (span.shift d)
  | .unterminatedInterpolation span => .unterminatedInterpolation (span.shift d)
  | .inTag fault => .inTag (fault.shift d)
  | .severalRoots span => .severalRoots (span.shift d)
  | .textOutsideRoot span => .textOutsideRoot (span.shift d)
  | .noRoot span => .noRoot (span.shift d)
  | .aborted span => .aborted (span.shift d)

theorem textNode?_shift (content : Text) (span : Span) :
    textNode? content (span.shift d) = (textNode? content span).map (Node.shift d) := by
  unfold textNode?
  split <;> rfl

namespace Event

def shift : Event → Event
  | .opened head => .opened (head.shift d)
  | .complete node => .complete (node.shift d)
  | .closed name span stop => .closed name (span.shift d) (stop + d)
  | .failed fault => .failed (fault.shift d)

theorem readTag_shift :
    readTag (c.shift d) = Cursor.shiftAnswer d (·.shift d) (·.shift d) (readTag c) := by
  simp only [readTag, Cursor.advance_shift, Cursor.takeWhile_shift, Attribute.readDistinct_shift]
  cases Attribute.readDistinct [] ((c.advance 1).takeWhile Cursor.isTagChar).2 with
  | error fault => rfl
  | ok found =>
    simp only [Cursor.shiftAnswer, Cursor.consume?_shift]
    cases found.2.consume? "/>" with
    | some after => rfl
    | none => cases found.2.consume? ">" <;> rfl

theorem readElement_shift :
    readElement (c.shift d) = Cursor.shiftAnswer d (·.shift d) (·.shift d) (readElement c) := by
  simp only [readElement, readTag_shift]
  cases readTag c with
  | error fault => rfl
  | ok found =>
    obtain ⟨head, after⟩ := found
    simp only [Cursor.shiftAnswer, Element.shift_tag, Element.shift_selfClosing, Cursor.body_shift,
      Cursor.atEnd_shift, Cursor.skipTag_shift]
    by_cases hself : head.selfClosing = true
    · simp only [hself, ↓reduceIte]
      rfl
    by_cases hvoid : isVoid head.tag = true
    · have hlast : (if (after.shift d).startsWith ("</" ++ head.tag) then after.skipTag.shift d
          else after.shift d) =
          (if after.startsWith ("</" ++ head.tag) then after.skipTag else after).shift d :=
        (apply_ite (Cursor.shift · d) _ _ _).symm
      simp only [hself, hvoid, Bool.false_eq_true, ↓reduceIte, hlast]
      rfl
    by_cases hraw : isRawText head.tag = true
    · by_cases hend : (after.body head.tag).2.atEnd = true
      · simp only [hself, hvoid, hraw, hend, Bool.false_eq_true, ↓reduceIte]
        rfl
      · simp only [hself, hvoid, hraw, hend, Bool.false_eq_true, ↓reduceIte, Cursor.shift_offset,
          Cursor.spanFrom_shift, textNode?_shift]
        cases textNode? _ _ <;> rfl
    · simp only [hself, hvoid, hraw, Bool.false_eq_true, ↓reduceIte]
      rfl

theorem readClosing_shift :
    readClosing (c.shift d) = ((readClosing c).1.shift d, (readClosing c).2.shift d) := by
  simp only [readClosing, shift, Span.shift, Cursor.shift_offset, Cursor.shift_rest,
    Cursor.skipTag_shift, Nat.add_right_comm _ d]

theorem readInterpolation_shift :
    readInterpolation (c.shift d) =
      Cursor.shiftAnswer d (·.shift d) (·.shift d) (readInterpolation c) := by
  simp only [readInterpolation, Cursor.advance_shift, Cursor.takeUntil_shift, Cursor.consume?_shift]
  cases ((c.advance 2).takeUntil "\x7d\x7d").2.consume? "\x7d\x7d" with
  | some after => rfl
  | none =>
    simp only [Cursor.shiftAnswer, Fault.shift, Span.shift, Cursor.shift_offset, Option.map_none,
      Nat.add_right_comm _ d]

theorem readText_shift :
    readText (c.shift d) = ((readText c).1.map (·.shift d), (readText c).2.shift d) := by
  simp only [readText, Cursor.advance_shift, Cursor.shift_rest, Cursor.shift_offset,
    Cursor.spanFrom_shift, textNode?_shift, Option.map_map]
  rfl

theorem read_shift :
    read (c.shift d) = Cursor.shiftAnswer d (·.shift d) (Option.map (·.shift d)) (read c) := by
  simp only [read_eq, Cursor.startsWith_shift, Cursor.shift_rest, readClosing_shift,
    Cursor.comment?_shift, readElement_shift, readInterpolation_shift, readText_shift]
  split
  · rfl
  split
  · cases c.comment? with
    | some found => rfl
    | none =>
      simp only [Cursor.shiftAnswer, Fault.shift, Span.shift, Cursor.shift_offset, Option.map_none,
        Nat.add_right_comm _ d]
  split
  · cases readElement c <;> rfl
  split
  · cases readInterpolation c <;> rfl
  · rfl

theorem scan_shift : scan (c.shift d) = (scan c).map (·.shift d) := by
  induction c using scan_induction with
  | stop c hend => rw [scan_of_end (c := c.shift d) hend, scan_of_end hend, List.map_nil]
  | failed c fault hend hread =>
    have hmoved : read (c.shift d) = .error (fault.shift d) := by
      rw [read_shift, hread]
      rfl
    have hrest : (c.shift d).rest ≠ [] := hend
    rw [scan_of_error hrest hmoved, scan_of_error hend hread]
    rfl
  | next c event after hend hread ih =>
    have hmoved : read (c.shift d) = .ok (event.map (·.shift d), after.shift d) := by
      rw [read_shift, hread]
      rfl
    have hrest : (c.shift d).rest ≠ [] := hend
    rw [scan_of_read hrest hmoved, scan_of_read hend hread, ih, List.map_append]
    cases event <;> rfl

end Event

/-! ### Moved trees -/

/-- Two readers at the same place of one template, the second `d` bytes further on and with some
nodes before the template. -/
inductive Follows (d : Nat) (before : List Node) :
    List Node → List Frame → List Node → List Frame → Prop
  | top {nodes : List Node} : Follows d before nodes [] (nodes.map (Node.shift d) ++ before) []
  | inside {head : Element} {nodes outer outer' : List Node} {frames frames' : List Frame}
      (rest : Follows d before outer frames outer' frames') :
      Follows d before nodes (⟨head, outer⟩ :: frames) (nodes.map (Node.shift d))
        (⟨head.shift d, outer'⟩ :: frames')

variable {d} {before nodes nodes' : List Node} {frames frames' : List Frame}

theorem Follows.cons (node : Node) (h : Follows d before nodes frames nodes' frames') :
    Follows d before (node :: nodes) frames (node.shift d :: nodes') frames' := by
  cases h with
  | top => exact .top
  | inside rest => exact .inside rest

/-- Moved events make moved nodes, behind those that were there before. -/
theorem build_shift {events : List Event} {tops : List Node}
    (hbuild : build events nodes frames = .ok tops)
    (h : Follows d before nodes frames nodes' frames') :
    build (events.map (·.shift d)) nodes' frames' =
      .ok (before.reverse ++ tops.map (Node.shift d)) := by
  fun_induction build events nodes frames generalizing nodes' frames' with
  | case1 nodes =>
    cases hbuild
    cases h
    simp [build]
  | case2 => cases hbuild
  | case3 => cases hbuild
  | case4 node events nodes frames ih => exact ih hbuild (h.cons node)
  | case5 head events nodes frames ih => exact ih hbuild (.inside h)
  | case6 => cases hbuild
  | case7 span stop events nodes frame frames whole =>
    rename_i ih
    cases h with
    | @inside head _ outer outer' _ frames' rest =>
      have hnext := ih hbuild (rest.cons _)
      rw [Node.shift, Node.shiftAll_eq_map, List.map_reverse] at hnext
      rw [List.map_cons, Event.shift, build, if_pos (Element.shift_tag head d).symm]
      exact hnext
  | case8 => cases hbuild

/-- The root of moved nodes is the moved root. -/
theorem root_shift {size : Nat} {found : Option Node} {root : Node} (size' : Nat)
    (h : Template.root size found nodes = .ok root) :
    Template.root size' (found.map (Node.shift d)) (nodes.map (Node.shift d)) =
      .ok (root.shift d) := by
  fun_induction Template.root size found nodes with
  | case1 => cases h
  | case2 node => cases h; rfl
  | case3 found content span nodes ih =>
    rw [List.map_cons, Node.shift, Template.root]
    exact ih h
  | case4 head children nodes ih => exact ih h
  | case5 => cases h
  | case6 => cases h
  | case7 => cases h

/-! ### Blanks and comments before a template -/

/-- Texts of blanks and comments. -/
inductive Preamble : Text → Prop
  | nil : Preamble []
  | blank {b : Char} {p : Text} (blank : isBlank b = true) (rest : Preamble p) : Preamble (b :: p)
  | comment {content p : Text} (clear : ClearOfComments content) (rest : Preamble p) :
      Preamble ("<!--" ++ (content ++ ("-->" ++ p)))

/-- Texts that have nothing but blanks before the first markup. -/
def Opens (s : Text) : Prop := Text.allBlank (plainText s) = true

theorem allBlank_cons {b : Char} {t : Text} (hb : isBlank b = true)
    (ht : Text.allBlank t = true) : Text.allBlank (b :: t) = true := by
  rw [Text.allBlank, List.all_cons, hb, Bool.true_and]
  exact ht

theorem startsMarkup_of_isBlank {b : Char} (t : Text) (h : isBlank b = true) :
    startsMarkup (b :: t) = false := by
  have hangle : b ≠ '<' := ne_of_isBlank h rfl
  have hbrace : b ≠ '\x7b' := ne_of_isBlank h rfl
  simp [startsMarkup, List.isPrefixOf, startsElement, hangle, hangle.symm, hbrace.symm]

theorem Preamble.opens {p s : Text} (h : Preamble p) (hs : Opens s) : Opens (p ++ s) := by
  induction h with
  | nil => exact hs
  | @blank b p blank rest ih =>
    rw [Opens, List.cons_append, plainText, startsMarkup_of_isBlank _ blank]
    exact allBlank_cons blank ih
  | comment => rfl

/-- Text before the next markup is one event, unless it is blank. -/
theorem scan_plainText {t rest : Text} (k : Nat) (hrest : rest = [] ∨ startsMarkup rest = true)
    (h : ∀ u, u ≠ [] → u <:+ t → startsMarkup (u ++ rest) = false) :
    ∃ span, Event.scan ⟨k, t ++ rest⟩ =
      ((textNode? t span).map .complete).toList ++ Event.scan ⟨k + Text.size t, rest⟩ := by
  cases t with
  | nil => exact ⟨.empty k, rfl⟩
  | cons d t =>
    have hne := List.cons_ne_nil d t
    obtain ⟨span, htext⟩ := Event.readText_append k hne hrest h
    refine ⟨span, Event.scan_of_read (by simp) ?_⟩
    rw [Event.read_of_text (h _ hne (List.suffix_refl _)), htext]

/-- A blank before a text that opens with blanks or markup is read as nothing. -/
theorem scan_blank {b : Char} {s : Text} (k : Nat) (hb : isBlank b = true) (hs : Opens s) :
    Event.scan ⟨k, b :: s⟩ = Event.scan ⟨k + b.utf8Size, s⟩ := by
  obtain ⟨rest, hcut, hrest, hinside⟩ := plainText_spec s
  have hmore : ∀ u, u ≠ [] → u <:+ b :: plainText s → startsMarkup (u ++ rest) = false := by
    intro u hu hsuffix
    cases List.suffix_cons_iff.1 hsuffix with
    | inl whole =>
      rw [whole]
      exact startsMarkup_of_isBlank _ hb
    | inr later => exact hinside u hu later
  have hblank : Text.allBlank (b :: plainText s) = true := allBlank_cons hb hs
  obtain ⟨span, hwith⟩ := scan_plainText k hrest hmore
  obtain ⟨span', hwithout⟩ := scan_plainText (k + b.utf8Size) hrest hinside
  rw [textNode?, if_pos hblank, List.cons_append, ← hcut] at hwith
  rw [textNode?, if_pos (show Text.allBlank (plainText s) = true from hs), ← hcut] at hwithout
  rw [hwith, hwithout, Text.size_cons, Nat.add_assoc]

/-- Of blanks and comments only the comments are read. -/
theorem yields_preamble {p s : Text} (h : Preamble p) (hs : Opens s) (k : Nat) :
    ∃ comments : List Node, (∀ node ∈ comments, ∃ content span, node = .comment content span) ∧
      Yields ⟨k, p ++ s⟩ comments ⟨k + Text.size p, s⟩ := by
  induction h generalizing k with
  | nil => exact ⟨[], by simp, .nil _⟩
  | @blank b p blank rest ih =>
    obtain ⟨comments, hcomments, hyields⟩ := ih (k + b.utf8Size)
    rw [Nat.add_assoc] at hyields
    refine ⟨comments, hcomments, fun before frames => ?_⟩
    rw [List.cons_append, scan_blank k blank (rest.opens hs)]
    exact hyields before frames
  | @comment content p clear rest ih =>
    obtain ⟨k', hcomment⟩ := Cursor.comment?_append k (p ++ s) clear
    have hoffset := (Cursor.reads_comment? hcomment).offset
    have hread := Event.read_of_comment (List.prefix_append _ _) hcomment
    obtain ⟨comments, hcomments, hyields⟩ := ih k'
    have hsize : k' + Text.size p = k + Text.size ("<!--" ++ (content ++ ("-->" ++ p))) := by
      simp only [Text.size_append] at hoffset ⊢
      omega
    rw [hsize] at hyields
    refine ⟨.comment content ⟨k, k'⟩ :: comments,
      List.forall_mem_cons.2 ⟨⟨content, _, rfl⟩, hcomments⟩, ?_⟩
    rw [List.append_assoc, List.append_assoc, List.append_assoc]
    exact .cons hread hyields

/-- The nodes at the top so far. -/
def topNodes : List Node → List Frame → List Node
  | nodes, [] => nodes
  | _, frame :: frames => topNodes frame.before frames

theorem mem_topNodes_cons {node other : Node} (h : other ∈ topNodes nodes frames) :
    other ∈ topNodes (node :: nodes) frames := by
  cases frames with
  | nil => exact List.mem_cons_of_mem _ h
  | cons frame frames => exact h

theorem mem_of_build {events : List Event} {tops : List Node}
    (h : build events nodes frames = .ok tops) : ∀ node ∈ topNodes nodes frames, node ∈ tops := by
  fun_induction build events nodes frames with
  | case1 nodes =>
    cases h
    exact fun node hnode => List.mem_reverse.2 hnode
  | case2 => cases h
  | case3 => cases h
  | case4 node events nodes frames ih =>
    exact fun other hother => ih h other (mem_topNodes_cons hother)
  | case5 head events nodes frames ih => exact ih h
  | case6 => cases h
  | case7 span stop events nodes frame frames whole ih =>
    exact fun other hother => ih h other (mem_topNodes_cons hother)
  | case8 => cases h

theorem text_not_mem_of_root {size : Nat} {found : Option Node} {root : Node}
    (h : Template.root size found nodes = .ok root) (content : Text) (span : Span) :
    .text content span ∉ nodes := by
  fun_induction Template.root size found nodes with
  | case1 => cases h
  | case2 => exact List.not_mem_nil
  | case3 found content span nodes ih => simpa using ih h
  | case4 head children nodes ih => simpa using ih h
  | case5 => cases h
  | case6 => cases h
  | case7 => cases h

/-- A template has no text before its root. -/
theorem opens_of_read {s : Text} {root : Node} (h : readPassed s = .ok root) : Opens s := by
  obtain ⟨rest, hcut, hrest, hinside⟩ := plainText_spec s
  obtain ⟨span, hscan⟩ := scan_plainText 0 hrest hinside
  rw [← hcut] at hscan
  by_contra hblank
  rw [Opens] at hblank
  rw [textNode?, if_neg hblank] at hscan
  unfold readPassed at h
  split at h
  · cases h
  · rename_i tops htops
    have hbuild : build (Event.scan (.start s)) [] [] =
        build (Event.scan ⟨0 + Text.size (plainText s), rest⟩) [.text (plainText s) span] [] := by
      rw [Cursor.start, hscan]
      rfl
    rw [hbuild] at htops
    exact text_not_mem_of_root h _ _ (mem_of_build htops _ List.mem_cons_self)

theorem root_comments {comments : List Node} (size : Nat)
    (h : ∀ node ∈ comments, ∃ content span, node = .comment content span) :
    Template.root size none (comments ++ nodes) = Template.root size none nodes := by
  induction comments with
  | nil => rfl
  | cons node comments ih =>
    obtain ⟨⟨content, span, rfl⟩, hmore⟩ := List.forall_mem_cons.1 h
    rw [List.cons_append, Template.root, ih hmore]

/-- Blanks and comments before a template move all of its tree by their size. -/
theorem readPassed_preamble {p s : Text} {root : Node} (hp : Preamble p)
    (h : readPassed s = .ok root) : readPassed (p ++ s) = .ok (root.shift (Text.size p)) := by
  obtain ⟨comments, hcomments, hyields⟩ := yields_preamble hp (opens_of_read h) 0
  unfold readPassed at h
  split at h
  · cases h
  · rename_i tops htops
    have hmoved := build_shift htops (@Follows.top (Text.size p) comments.reverse [])
    rw [← Event.scan_shift, List.reverse_reverse] at hmoved
    have hbuild : build (Event.scan (.start (p ++ s))) [] [] =
        .ok (comments ++ tops.map (Node.shift (Text.size p))) := by
      rw [Cursor.start, hyields, List.append_nil]
      exact hmoved
    rw [readPassed, hbuild]
    exact (root_comments _ hcomments).trans (root_shift _ h)

end Template

/-- The spans of a node, without those inside it. -/
def Node.spans : Node → List Span
  | .element head _ => head.span :: head.tagSpan :: head.attributes.map Attribute.span
  | .expression _ span => [span]
  | .text _ span => [span]
  | .comment _ span => [span]

theorem Node.Placed.stop_le {source : Text} {node : Node} (h : node.Placed source) :
    ∀ span ∈ node.spans, span.stop ≤ Text.size source := by
  cases node with
  | element head children =>
    obtain ⟨inTag, content, close, hplaced⟩ := h
    intro span hspan
    simp only [spans, List.mem_cons, List.mem_map] at hspan
    obtain rfl | rfl | ⟨a, ha, rfl⟩ := hspan
    · obtain ⟨rest, hcovers⟩ := hplaced.whole
      exact hcovers.stop_le
    · exact hplaced.opening.tag.stop_le
    · obtain ⟨t, -, hcovers⟩ := hplaced.opening.spelled a ha
      exact hcovers.stop_le
  | expression | text | comment => exact List.forall_mem_singleton.2 (Span.Covers.stop_le h)

namespace Template

/-- Blanks and comments before a template move all of its tree by their size and do nothing else.
Every offset of the moved tree is one of the whole text, so it has 32 bits if the size of that
has. -/
theorem read_append_of_preamble {p s : Text} {root : Node} (hp : Preamble p)
    (hsize : Text.size (p ++ s) < Span.offsetLimit) (h : read s = .ok root) :
    read (p ++ s) = .ok (root.shift (Text.size p)) ∧
      ∀ node ∈ (root.shift (Text.size p)).subtree, ∀ span ∈ node.spans,
        span.stop < Span.offsetLimit := by
  have hsize' : Text.size s < Span.offsetLimit := by
    rw [Text.size_append] at hsize
    omega
  have hread := readPassed_preamble hp (read_eq_readPassed hsize' ▸ h)
  refine ⟨(read_eq_readPassed hsize).trans hread, fun node hnode span hspan => ?_⟩
  obtain ⟨before, after, hrow, -⟩ := exists_row_of_read hread
  have hplaced := hrow.placed _ (List.mem_reverse.2 (by simp)) node hnode
  exact Nat.lt_of_le_of_lt (hplaced.stop_le span hspan) hsize

/-- A comment between blanks of one and of three bytes. -/
def preambleSample : Text := '\n' :: ("<!--" ++ (" - " ++ ("-->" ++ ['\u2003'])))

/-- A template that starts with a blank itself. -/
def movedSample : Text := " <p :a='b'>é<br>\x7b\x7b c \x7d\x7d</p>"

theorem read_append_of_preamble_sample :
    Preamble preambleSample ∧ Text.size (preambleSample ++ movedSample) < Span.offsetLimit ∧
      ∃ root, read movedSample = .ok root ∧ root.span = ⟨1, 28⟩ ∧ root.subtree.length = 4 ∧
        read (preambleSample ++ movedSample) = .ok (root.shift 14) ∧
        ∀ node ∈ (root.shift 14).subtree, ∀ span ∈ node.spans, span.stop < Span.offsetLimit := by
  have hp : Preamble preambleSample := .blank rfl (.comment (by decide) (.blank rfl .nil))
  have hsize : Text.size (preambleSample ++ movedSample) < Span.offsetLimit := by decide +kernel
  have hsome : ∃ root ∈ (read movedSample).toOption,
      root.span = ⟨1, 28⟩ ∧ root.subtree.length = 4 := by
    decide +kernel
  obtain ⟨root, hroot, hspan, hnodes⟩ := hsome
  have h : read movedSample = .ok root := eq_ok_of_toOption hroot
  exact ⟨hp, hsize, root, h, hspan, hnodes, read_append_of_preamble hp hsize h⟩

end Template

end Wxml
