import Wxml.Proofs.Location

/-!
# Where the nodes of a template stand

`Node.Placed` says that a node stands in the source where its span says, together with its parts.
For an element these are its tag, its attributes, its children and its closing tag
(`Element.PlacedAt`); nothing but blanks stands between the children.

`Event.Placed` is the same for one event.  `Event.read_outcome` says that each event stands where it
was read, and that one which cannot be read is at fault at a place of the source.
-/

namespace Wxml

open Template

/-! ### Nodes in a source -/

/-- A closing tag stands between two offsets.  It ends with its first `>`, or without one at the end
of the source. -/
def Closes (source name : Text) (a b : Nat) : Prop :=
  ∃ more, '>' ∉ name ++ more ∧
    ((⟨a, b⟩ : Span).Covers source ("</" ++ (name ++ (more ++ ">"))) ∨
      b = Text.size source ∧ (⟨a, b⟩ : Span).Covers source ("</" ++ (name ++ more)))

theorem Closes.le {source name : Text} {a b : Nat} (h : Closes source name a b) : a ≤ b := by
  obtain ⟨more, -, hcovers | ⟨-, hcovers⟩⟩ := h
  · exact hcovers.start_le
  · exact hcovers.start_le

namespace Element

/-- An element without content: it is self-closing or void. -/
def Bare (head : Element) : Prop := head.selfClosing = true ∨ isVoid head.tag = true

/-- How an opening tag stands in a source.  Its attributes end at `inTag`, before a `>` or `/>`, and
the tag ends at `content`. -/
structure OpenedAt (source : Text) (head : Element) (inTag content : Nat) : Prop where
  starts : (⟨head.span.start, head.tagSpan.stop⟩ : Span).Covers source ('<' :: head.tag)
  tag : head.tagSpan.Covers source head.tag
  attributes : Tiles source (· != '>') head.tagSpan.stop (head.attributes.map Attribute.span) inTag
  spelled : ∀ a ∈ head.attributes, a.Placed source
  bracket : (⟨inTag, content⟩ : Span).Covers source (if head.selfClosing then "/>" else ">")

/-- What ends an element at `stop`: nothing, or a closing tag that starts at `close`.  That of an
element of raw text may be written in another case. -/
def Ends (source : Text) (head : Element) (close stop : Nat) : Prop :=
  (head.Bare ∧ stop = close) ∨
    ∃ name, Text.sameIgnoringCase name head.tag = true ∧
      (isRawText head.tag = false → name = head.tag) ∧ Closes source name close stop

/-- How an element stands in a source.  Its children fill the stretch between its opening tag, which
ends at `content`, and its end, which starts at `close`. -/
structure PlacedAt (source : Text) (head : Element) (children : List Node)
    (inTag content close : Nat) : Prop where
  opening : head.OpenedAt source inTag content
  whole : ∃ rest, head.span.Covers source ('<' :: (head.tag ++ rest))
  inside : Tiles source isBlank content (children.map Node.span) close
  empty : head.Bare → children = [] ∧ close = content
  ends : head.Ends source close head.span.stop

end Element

namespace Node

/-- A node stands in a source where its span says. -/
def Placed (source : Text) : Node → Prop
  | .element head children =>
    ∃ inTag content close, head.PlacedAt source children inTag content close
  | .expression raw span => span.Covers source ("\x7b\x7b" ++ (raw ++ "\x7d\x7d"))
  | .text content span => span.Covers source content
  | .comment content span => span.Covers source ("<!--" ++ (content ++ "-->"))

theorem Placed.within {source : Text} {node : Node} (h : node.Placed source) :
    node.span.Within source := by
  cases node with
  | element head children =>
    obtain ⟨inTag, content, close, hplaced⟩ := h
    obtain ⟨rest, hcovers⟩ := hplaced.whole
    exact ⟨_, hcovers⟩
  | expression raw span => exact ⟨_, h⟩
  | text content span => exact ⟨_, h⟩
  | comment content span => exact ⟨_, h⟩

mutual

/-- A node and all nodes inside it, in document order. -/
def subtree : Node → List Node
  | .element head children => .element head children :: subtrees children
  | node => [node]

def subtrees : List Node → List Node
  | [] => []
  | node :: nodes => node.subtree ++ subtrees nodes

end

theorem mem_subtrees {node : Node} {nodes : List Node} :
    node ∈ subtrees nodes ↔ ∃ top ∈ nodes, node ∈ top.subtree := by
  induction nodes with
  | nil => simp [subtrees]
  | cons top nodes ih => simp [subtrees, ih]

theorem mem_subtree_self (node : Node) : node ∈ node.subtree := by
  cases node <;> simp [subtree]

theorem forall_mem_subtree_element {p : Node → Prop} {head : Element} {children : List Node}
    (h : p (.element head children))
    (hinside : ∀ child ∈ children, ∀ inner ∈ child.subtree, p inner) :
    ∀ inner ∈ (Node.element head children).subtree, p inner := by
  intro inner hinner
  rw [subtree, List.mem_cons] at hinner
  rcases hinner with rfl | hinner
  · exact h
  · obtain ⟨child, hchild, hmem⟩ := mem_subtrees.1 hinner
    exact hinside child hchild inner hmem

/-- A node and all nodes inside it stand in a source. -/
def AllPlaced (source : Text) (node : Node) : Prop := ∀ inner ∈ node.subtree, inner.Placed source

theorem allPlaced_element {source : Text} {head : Element} {children : List Node}
    (h : (Node.element head children).Placed source)
    (hinside : ∀ child ∈ children, child.AllPlaced source) :
    (Node.element head children).AllPlaced source := forall_mem_subtree_element h hinside

end Node

namespace Template

/-! ### Events in a source -/

/-- An event stands between two offsets of a source. -/
def Event.Placed (source : Text) (a b : Nat) : Event → Prop
  | .opened head => head.span = ⟨a, b⟩ ∧ ¬ head.Bare ∧ isRawText head.tag = false ∧
      ∃ inTag, head.OpenedAt source inTag b
  | .complete node => node.span = ⟨a, b⟩ ∧ node.AllPlaced source
  | .closed name span stop => stop = b ∧ span.Within source ∧ Closes source name a b
  | .failed fault => fault.span.Within source

/-! ### Tags -/

theorem closes_skipTag {source name : Text} {c : Cursor} (hin : c.In source)
    (h : ("</" : Text) ++ name <+: c.rest) (hname : '>' ∉ name) :
    c.skipTag.In source ∧ Closes source name c.offset c.skipTag.offset := by
  obtain ⟨t, ht, hreads | ⟨hreads, hend⟩⟩ := c.reads_skipTag
  · have hrest := hreads.rest
    rw [List.append_assoc] at hrest
    rw [hrest] at h
    obtain ⟨more, rfl⟩ := Text.prefix_of_prefix_append h (by simpa using hname)
    refine ⟨hin.reads hreads, more, by simpa using ht, .inl ?_⟩
    have := hin.covers hreads
    simpa using this
  · rw [hreads.rest, hend] at h
    obtain ⟨more, rfl⟩ := Text.prefix_of_prefix_append h (by simp)
    have hlast := hin.reads hreads
    refine ⟨hlast, more, by simpa using ht, .inr ⟨hlast.offset_eq_size hend, ?_⟩⟩
    have := hin.covers hreads
    simpa using this

theorem not_mem_of_isTagChar {tag : Text} (h : ∀ c ∈ tag, Cursor.isTagChar c = true) :
    '>' ∉ tag := fun hmem => absurd (h _ hmem) (by decide)

namespace Event

variable {source : Text} {c : Cursor}

/-- An opening tag stands where it was read. -/
theorem readTag_outcome (hin : c.In source) (hc : c.rest.head? = some '<') :
    Cursor.Outcome source Fault.span
      (fun head after => head.span = ⟨c.offset, after.offset⟩ ∧ '>' ∉ head.tag ∧
        ∃ inTag, head.OpenedAt source inTag after.offset)
      (readTag c) := by
  obtain ⟨rest, hrest⟩ := List.head?_eq_some_iff.1 hc
  have hbracket : c.Reads ['<'] (c.advance 1) := by
    have := c.reads_advance 1
    rwa [hrest] at this
  have hname := (c.advance 1).reads_takeWhile Cursor.isTagChar
  have hbefore := hbracket.trans hname
  have hstarts := hin.covers hbefore
  have htag := (hin.reads hbracket).covers hname
  have hclear : '>' ∉ ((c.advance 1).takeWhile Cursor.isTagChar).1 :=
    not_mem_of_isTagChar (List.all_eq_true.1 List.all_takeWhile)
  have hattributes := Attribute.readDistinct_outcome [] _ (hin.reads hbefore)
  unfold readTag
  simp only
  split
  · rename_i fault hfault
    rw [hfault] at hattributes
    exact hattributes
  · rename_i attributes close hfound
    rw [hfound] at hattributes
    obtain ⟨hclose, htiles, hplaced⟩ := hattributes
    split
    · rename_i last hlast
      have hend := Cursor.reads_consume? hlast
      exact ⟨hclose.reads hend, rfl, hclear, close.offset, hstarts, htag, htiles, hplaced,
        hclose.covers hend⟩
    · split
      · rename_i last hlast
        have hend := Cursor.reads_consume? hlast
        exact ⟨hclose.reads hend, rfl, hclear, close.offset, hstarts, htag, htiles, hplaced,
          hclose.covers hend⟩
      · refine hin.within_of_le hclose ?_
        have h₁ := htiles.le
        have h₂ := hbefore.offset
        omega

end Event

/-! ### The content of raw text -/

theorem startsTag_of_closing {tag t : Text} {n : Nat}
    (h : Body.Piece.ofText tag t = (.closing, n)) : Body.startsTag ("</" ++ tag) t = true := by
  unfold Body.Piece.ofText at h
  split at h
  · split at h <;> cases h
  · split at h
    · assumption
    · split at h
      · simp only [Prod.mk.injEq] at h
        split at h <;> cases h.1
      · cases h

/-- The content of a block ends before a closing tag of its name, or at the end. -/
theorem startsTag_drop_length (tag : Text) (depth : Nat) (t : Text) :
    t.drop (Body.length tag depth t) = [] ∨
      Body.startsTag ("</" ++ tag) (t.drop (Body.length tag depth t)) = true := by
  have hdrop : ∀ (c : Char) (t : Text) (n m : Nat),
      (c :: t).drop (n + 1 + m) = (t.drop n).drop m := by
    intro c t n m
    rw [List.drop_drop, Nat.add_right_comm, List.drop_succ_cons]
  fun_induction Body.length tag depth t with
  | case1 => exact .inl rfl
  | case2 c t n hpiece => exact .inr (startsTag_of_closing hpiece)
  | case3 c t n hpiece depth ih =>
    rw [hdrop]
    exact ih
  | case4 depth c t n hpiece ih =>
    rw [hdrop]
    exact ih
  | case5 depth c t piece n hpiece hclosing hopening ih =>
    rw [hdrop]
    exact ih

/-- Only letters have a small form of their own. -/
theorem eq_of_toLower {c d : Char} (h : c.toLower = d) (hd : d.isLower = false) : c = d := by
  unfold Char.toLower at h
  split at h
  · rename_i hupper
    exfalso
    have hrange : (decide ('a'.val ≤ d.val) && decide (d.val ≤ 'z'.val)) = false := hd
    rw [← h] at hrange
    simp only [Bool.and_eq_false_iff, decide_eq_false_iff_not] at hrange
    simp only [UInt32.le_iff_toNat_le, ge_iff_le] at hupper hrange
    have hA : 'A'.val.toNat = 65 := rfl
    have hZ : 'Z'.val.toNat = 90 := rfl
    have ha : 'a'.val.toNat = 97 := rfl
    have hz : 'z'.val.toNat = 122 := rfl
    have hshift : ('a'.val - 'A'.val).toNat = 32 := rfl
    rw [UInt32.toNat_add, hshift] at hrange
    omega
  · exact h

/-- A closing tag in any case starts like one. -/
theorem exists_name_of_startsTag {tag t : Text} (h : Body.startsTag ("</" ++ tag) t = true) :
    ∃ name, ("</" : Text) ++ name <+: t ∧ Text.sameIgnoringCase name tag = true := by
  simp only [Body.startsTag, Bool.and_eq_true] at h
  have hsame :
      Text.lower (t.take (("</" : Text) ++ tag).length) = '<' :: '/' :: Text.lower tag := by
    have := h.1
    rw [Text.sameIgnoringCase, beq_iff_eq] at this
    exact this
  have hprefix := List.take_prefix (("</" : Text) ++ tag).length t
  cases hcut : t.take (("</" : Text) ++ tag).length with
  | nil =>
    rw [hcut] at hsame
    cases hsame
  | cons a cut =>
    rw [hcut] at hsame hprefix
    cases cut with
    | nil => simp [Text.lower] at hsame
    | cons b name =>
      simp only [Text.lower, List.map_cons, List.cons.injEq] at hsame
      obtain ⟨ha, hb, hname⟩ := hsame
      have ha' := eq_of_toLower ha (by decide)
      have hb' := eq_of_toLower hb (by decide)
      subst ha' hb'
      exact ⟨name, hprefix, by rw [Text.sameIgnoringCase, beq_iff_eq]; exact hname⟩

/-- The content of a block is followed by a closing tag of its name, in any case, or by nothing. -/
theorem exists_name_of_body {c : Cursor} {tag : Text} (h : (c.body tag).2.rest ≠ []) :
    ∃ name, ("</" : Text) ++ name <+: (c.body tag).2.rest ∧
      Text.sameIgnoringCase name tag = true := by
  have hrest : (c.body tag).2.rest = c.rest.drop (Body.length tag 0 c.rest) := by
    have := (c.reads_body tag).rest
    nth_rewrite 1 [← List.take_append_drop (Body.length tag 0 c.rest) c.rest] at this
    exact (List.append_cancel_left this).symm
  apply exists_name_of_startsTag
  rw [hrest] at h ⊢
  exact (startsTag_drop_length tag 0 c.rest).resolve_left h

theorem not_mem_of_sameIgnoringCase {name tag : Text} (h : Text.sameIgnoringCase name tag = true)
    (htag : '>' ∉ tag) : '>' ∉ name := by
  rw [Text.sameIgnoringCase, beq_iff_eq] at h
  intro hmem
  have hlower : '>' ∈ Text.lower name := List.mem_map.2 ⟨'>', hmem, by decide⟩
  rw [h] at hlower
  obtain ⟨c, hc, hlow⟩ := List.mem_map.1 hlower
  exact htag (eq_of_toLower hlow (by decide) ▸ hc)

namespace Event

variable {source : Text} {c after : Cursor}

/-- The stretch from the start of an opening tag to any later place. -/
theorem whole_of_openedAt {head : Element} {inTag content stop : Nat}
    (h : head.OpenedAt source inTag content) (hle : content ≤ stop)
    (hstop : Text.Boundary source stop) :
    ∃ rest, (⟨head.span.start, stop⟩ : Span).Covers source ('<' :: (head.tag ++ rest)) := by
  have h₁ := h.attributes.le
  have h₂ : inTag ≤ content := h.bracket.start_le
  exact h.starts.extend (show head.tagSpan.stop ≤ stop by omega) hstop

/-- The content of an element of raw text is one text, unless it is blank. -/
theorem tiles_textNode? {content : Text} {d : Cursor} (hin : c.In source)
    (hreads : c.Reads content d) :
    Tiles source isBlank c.offset
        ((textNode? content (d.spanFrom c.offset)).toList.map Node.span) d.offset ∧
      ∀ child ∈ (textNode? content (d.spanFrom c.offset)).toList, child.AllPlaced source := by
  unfold textNode?
  split
  · rename_i hblank
    refine ⟨hin.gap hreads ?_, by simp⟩
    exact List.all_eq_true.1 hblank
  · have hcovers := hin.covers hreads
    refine ⟨⟨hin.gap_self _, hcovers.start_le, (hin.reads hreads).gap_self _⟩, ?_⟩
    intro child hchild
    rw [Option.toList_some, List.mem_singleton] at hchild
    subst hchild
    intro inner hinner
    rw [Node.subtree, List.mem_singleton] at hinner
    · subst hinner
      exact hcovers
    · simp

theorem openedAt_respan {head : Element} {inTag content : Nat} {span : Span}
    (h : head.OpenedAt source inTag content) (hstart : span.start = head.span.start) :
    { head with span := span }.OpenedAt source inTag content where
  starts := by
    show (⟨span.start, head.tagSpan.stop⟩ : Span).Covers source ('<' :: head.tag)
    rw [hstart]
    exact h.starts
  tag := h.tag
  attributes := h.attributes
  spelled := h.spelled
  bracket := h.bracket

/-- An element stands in a source once its opening tag, its content and its end do. -/
theorem placedAt_of_ends {head : Element} {children : List Node} {inTag content close : Nat}
    {last : Cursor} (hopened : head.OpenedAt source inTag content) (hlast : last.In source)
    (hinside : Tiles source isBlank content (children.map Node.span) close)
    (hempty : head.Bare → children = [] ∧ close = content)
    (hends : head.Ends source close last.offset) :
    { head with span := ⟨head.span.start, last.offset⟩ }.PlacedAt source children inTag content
      close := by
  have hle : content ≤ last.offset := by
    have h₁ := hinside.le
    rcases hends with ⟨-, hstop⟩ | ⟨name, -, -, hcloses⟩
    · omega
    · have := hcloses.le
      omega
  exact ⟨openedAt_respan hopened rfl, whole_of_openedAt hopened hle hlast.boundary, hinside, hempty,
    hends⟩

theorem allPlaced_of_ends {head : Element} {children : List Node} {inTag content close : Nat}
    {last : Cursor} (hopened : head.OpenedAt source inTag content) (hlast : last.In source)
    (hinside : Tiles source isBlank content (children.map Node.span) close)
    (hchildren : ∀ child ∈ children, child.AllPlaced source)
    (hempty : head.Bare → children = [] ∧ close = content)
    (hends : head.Ends source close last.offset) :
    (Node.element { head with span := ⟨head.span.start, last.offset⟩ } children).AllPlaced
      source :=
  Node.allPlaced_element
    ⟨inTag, content, close, placedAt_of_ends hopened hlast hinside hempty hends⟩ hchildren

theorem ends_of_closes {head : Element} {close stop : Nat}
    (h : Closes source head.tag close stop) : head.Ends source close stop :=
  .inr ⟨head.tag, by simp [Text.sameIgnoringCase], fun _ => rfl, h⟩

/-- An element without content ends where its opening tag does, or with a closing tag after it. -/
theorem placed_bare {head : Element} {opening last : Cursor} {inTag : Nat}
    (hopened : head.OpenedAt source inTag opening.offset) (hstart : head.span.start = c.offset)
    (hopening : opening.In source) (hlast : last.In source)
    (hends : head.Ends source opening.offset last.offset) :
    Event.Placed source c.offset last.offset
      (.complete (.element { head with span := last.spanFrom c.offset } [])) := by
  have hnothing : Tiles source isBlank opening.offset (([] : List Node).map Node.span)
      opening.offset := hopening.gap_self _
  have hplaced := allPlaced_of_ends hopened hlast hnothing (by simp) (fun _ => ⟨rfl, rfl⟩) hends
  rw [hstart] at hplaced
  exact ⟨rfl, hplaced⟩

/-- An element of raw text ends with the closing tag after its content. -/
theorem placedAt_rawText {head : Element} {opening : Cursor} {inTag : Nat} (hbare : ¬ head.Bare)
    (hraw : isRawText head.tag = true) (hclear : '>' ∉ head.tag)
    (hopened : head.OpenedAt source inTag opening.offset) (hopening : opening.In source)
    (hend : (opening.body head.tag).2.rest ≠ []) :
    (opening.body head.tag).2.skipTag.In source ∧
      { head with
        span := ⟨head.span.start, (opening.body head.tag).2.skipTag.offset⟩ }.PlacedAt source
          (textNode? (opening.body head.tag).1
            ((opening.body head.tag).2.spanFrom opening.offset)).toList
          inTag opening.offset (opening.body head.tag).2.offset := by
  have hbody := opening.reads_body head.tag
  obtain ⟨name, hprefix, hsame⟩ := exists_name_of_body hend
  obtain ⟨hlast, hcloses⟩ := closes_skipTag (hopening.reads hbody) hprefix
    (not_mem_of_sameIgnoringCase hsame hclear)
  have hends : head.Ends source (opening.body head.tag).2.offset
      (opening.body head.tag).2.skipTag.offset := .inr ⟨name, hsame, by simp [hraw], hcloses⟩
  exact ⟨hlast, placedAt_of_ends hopened hlast (tiles_textNode? hopening hbody).1
    (fun hbare' => absurd hbare' hbare) hends⟩

theorem placed_rawText {head : Element} {opening : Cursor} {inTag : Nat} (hbare : ¬ head.Bare)
    (hraw : isRawText head.tag = true) (hclear : '>' ∉ head.tag)
    (hopened : head.OpenedAt source inTag opening.offset) (hstart : head.span.start = c.offset)
    (hopening : opening.In source) (hend : (opening.body head.tag).2.rest ≠ []) :
    (opening.body head.tag).2.skipTag.In source ∧
      Event.Placed source c.offset (opening.body head.tag).2.skipTag.offset
        (.complete (.element
          { head with span := (opening.body head.tag).2.skipTag.spanFrom c.offset }
          (textNode? (opening.body head.tag).1
            ((opening.body head.tag).2.spanFrom opening.offset)).toList)) := by
  obtain ⟨hlast, hplaced⟩ := placedAt_rawText hbare hraw hclear hopened hopening hend
  have hchildren := (tiles_textNode? hopening (opening.reads_body head.tag)).2
  rw [hstart] at hplaced
  exact ⟨hlast, rfl, Node.allPlaced_element ⟨_, _, _, hplaced⟩ hchildren⟩

/-- An element stands where it was read, or at least its opening tag does. -/
theorem readElement_outcome (hin : c.In source) (hc : c.rest.head? = some '<') :
    Cursor.Outcome source Fault.span
      (fun event after => event.Placed source c.offset after.offset) (readElement c) := by
  have htag := readTag_outcome hin hc
  unfold readElement
  split
  · rename_i fault hfault
    rw [hfault] at htag
    exact htag
  · rename_i head opening hfound
    rw [hfound] at htag
    obtain ⟨hopening, hspan, hclear, inTag, hopened⟩ := htag
    have hstart : head.span.start = c.offset := by rw [hspan]
    simp only
    split
    · rename_i hself
      have hplaced := placed_bare hopened hstart hopening hopening
        (.inl ⟨.inl hself, rfl⟩)
      rw [Cursor.spanFrom, ← hspan] at hplaced
      exact ⟨hopening, hplaced⟩
    · rename_i hself
      split
      · rename_i hvoid
        split
        · rename_i hstarts
          obtain ⟨hlast, hcloses⟩ :=
            closes_skipTag hopening (Cursor.startsWith_iff.1 hstarts) hclear
          exact ⟨hlast, placed_bare hopened hstart hopening hlast (ends_of_closes hcloses)⟩
        · exact ⟨hopening, placed_bare hopened hstart hopening hopening (.inl ⟨.inr hvoid, rfl⟩)⟩
      · rename_i hvoid
        have hbare : ¬ head.Bare := fun h => h.elim hself hvoid
        split
        · rename_i hraw
          split
          · obtain ⟨rest, hcovers⟩ :=
              whole_of_openedAt hopened (Nat.le_refl _) hopening.boundary
            show head.span.Within source
            rw [hstart] at hcovers
            rw [hspan]
            exact ⟨_, hcovers⟩
          · rename_i hend
            exact placed_rawText hbare hraw hclear hopened hstart hopening
              (by simpa [Cursor.atEnd] using hend)
        · rename_i hraw
          exact ⟨hopening, hspan, hbare, by simpa using hraw, inTag, hopened⟩

/-- A closing tag stands where it was read. -/
theorem readClosing_placed (hin : c.In source) (h : c.startsWith "</" = true) :
    (readClosing c).2.In source ∧
      (readClosing c).1.Placed source c.offset (readClosing c).2.offset := by
  obtain ⟨rest, hrest⟩ := Cursor.startsWith_iff.1 h
  have hname : (c.rest.drop 2).takeWhile Cursor.isTagChar = rest.takeWhile Cursor.isTagChar := by
    rw [← hrest]
    rfl
  have hprefix : ("</" : Text) ++ rest.takeWhile Cursor.isTagChar <+: c.rest := by
    rw [← hrest]
    exact (List.prefix_append_right_inj _).2 (List.takeWhile_prefix _)
  obtain ⟨hlast, hcloses⟩ := closes_skipTag hin hprefix
    (not_mem_of_isTagChar (List.all_eq_true.1 List.all_takeWhile))
  refine ⟨hlast, rfl, ?_, ?_⟩
  · obtain ⟨more, hmore⟩ := hprefix
    have hreads := Cursor.reads_advance_length hmore.symm
    have hcovers := hin.covers hreads
    rw [hreads.offset, Text.size_append, ← Nat.add_assoc] at hcovers
    rw [hname]
    exact ⟨_, hcovers⟩
  · rw [hname]
    exact hcloses

theorem placed_complete {node : Node} (hspan : node.span = ⟨c.offset, after.offset⟩)
    (hplaced : node.Placed source) (hleaf : node.subtree = [node]) :
    Event.Placed source c.offset after.offset (.complete node) := by
  refine ⟨hspan, fun inner hinner => ?_⟩
  rw [hleaf, List.mem_singleton] at hinner
  rwa [hinner]

theorem readInterpolation_outcome (hin : c.In source) (hstarts : c.startsWith "\x7b\x7b" = true) :
    Cursor.Outcome source Fault.span
      (fun event after => event.Placed source c.offset after.offset) (readInterpolation c) := by
  obtain ⟨rest, hrest⟩ := Cursor.startsWith_iff.1 hstarts
  have hopen : c.Reads "\x7b\x7b" (c.advance 2) := Cursor.reads_advance_length hrest.symm
  have hraw := (c.advance 2).reads_takeUntil "\x7d\x7d"
  unfold readInterpolation
  simp only
  split
  · rename_i last hclose
    have hreads := hopen.trans (hraw.trans (Cursor.reads_consume? hclose))
    exact ⟨hin.reads hreads, placed_complete rfl (hin.covers hreads) rfl⟩
  · exact hin.within_pattern hstarts rfl

theorem isPrefix_plainText (t : Text) : plainText t <+: t := by
  induction t with
  | nil => exact List.prefix_refl _
  | cons d t ih =>
    rw [plainText]
    split
    · exact List.nil_prefix
    · exact (List.cons_prefix_cons).2 ⟨rfl, ih⟩

/-- What was read from one offset to another: an event that stands there, or only blanks. -/
def PlacedOrBlank (source : Text) (a b : Nat) (event : Option Event) : Prop :=
  (event = none ∧ Gap source isBlank a b) ∨
    ∃ found, event = some found ∧ found.Placed source a b

/-- The characters of a text lie between the cursors before and after it. -/
theorem reads_text (hc : c.rest ≠ []) :
    c.Reads (c.rest.take 1 ++ plainText (c.rest.drop 1))
      (c.advance (1 + (plainText (c.rest.drop 1)).length)) := by
  obtain ⟨d, t, ht⟩ := List.exists_cons_of_ne_nil hc
  obtain ⟨rest, hrest⟩ := isPrefix_plainText t
  have hcut : c.rest = (d :: plainText t) ++ rest := by rw [ht, List.cons_append, hrest]
  have hreads := Cursor.reads_advance_length hcut
  rw [List.length_cons, Nat.add_comm] at hreads
  rwa [ht]

/-- Text stands where it was read, unless it is blank. -/
theorem readText_placed (hin : c.In source) (hc : c.rest ≠ []) :
    (readText c).2.In source ∧
      PlacedOrBlank source c.offset (readText c).2.offset (readText c).1 := by
  have hreads := reads_text hc
  refine ⟨hin.reads hreads, ?_⟩
  unfold readText textNode?
  split
  · rename_i hblank
    exact .inl ⟨rfl, hin.gap hreads (List.all_eq_true.1 hblank)⟩
  · exact .inr ⟨_, rfl, placed_complete rfl (hin.covers hreads) rfl⟩

/-- An event stands where it was read. -/
theorem read_outcome (hin : c.In source) (hc : c.rest ≠ []) :
    Cursor.Outcome source Fault.span
      (fun event after => PlacedOrBlank source c.offset after.offset event) (read c) := by
  rw [read_eq]
  split
  · rename_i hclosing
    obtain ⟨hlast, hplaced⟩ := readClosing_placed hin hclosing
    exact ⟨hlast, .inr ⟨_, rfl, hplaced⟩⟩
  · split
    · rename_i hstarts
      split
      · rename_i content last hcomment
        have hreads := Cursor.reads_comment? hcomment
        exact ⟨hin.reads hreads, .inr ⟨_, rfl, placed_complete rfl (hin.covers hreads) rfl⟩⟩
      · exact hin.within_pattern hstarts rfl
    · split
      · rename_i hstarts
        obtain ⟨d, rest, hrest, -⟩ := startsElement_iff.1 hstarts
        have helement := readElement_outcome hin (by rw [hrest]; rfl)
        split
        · rename_i found last hread
          rw [hread] at helement
          exact ⟨helement.1, .inr ⟨_, rfl, helement.2⟩⟩
        · rename_i fault hread
          rwa [hread] at helement
      · split
        · rename_i hbraces
          have hinterpolation := readInterpolation_outcome hin hbraces
          split
          · rename_i found last hread
            rw [hread] at hinterpolation
            exact ⟨hinterpolation.1, .inr ⟨_, rfl, hinterpolation.2⟩⟩
          · rename_i fault hread
            rwa [hread] at hinterpolation
        · exact readText_placed hin hc

/-! ### Texts are cut out where they were passed -/

/-- In a source whose offsets have 32 bits, a text is cut out as it is passed. -/
theorem readBy_cut (hsize : Text.size source < Span.offsetLimit) (hin : c.In source)
    (hc : c.rest ≠ []) : readBy (fun span _ => span.cut? source) c = read c := by
  have htext : readTextBy (fun span _ => span.cut? source) c = .ok (readText c) := by
    have hcut := (hin.covers (reads_text hc)).cut? hsize
    unfold readTextBy readText
    simp only [Cursor.spanFrom, hcut]
  rw [readBy, htext]
  rfl

theorem scanBy_cut (hsize : Text.size source < Span.offsetLimit) (hin : c.In source) :
    scanBy (fun span _ => span.cut? source) c = scan c := by
  induction c using scan_induction with
  | stop c hend => rw [scan_of_end hend, scanBy_of_end hend]
  | failed c fault hend hread =>
    rw [scan_of_error hend hread, scanBy_of_error hend (readBy_cut hsize hin hend ▸ hread)]
  | next c event after hend hread ih =>
    have houtcome := read_outcome hin hend
    rw [hread] at houtcome
    rw [scan_of_read hend hread, scanBy_of_read hend (readBy_cut hsize hin hend ▸ hread),
      ih houtcome.1]

end Event

/-- A source whose offsets have 32 bits is read as its text is passed. -/
theorem read_eq_readPassed {source : Text} (hsize : Text.size source < Span.offsetLimit) :
    read source = readPassed source := by
  rw [read, Event.scanBy_cut hsize (Cursor.in_start source)]
  rfl

end Template

end Wxml
