import Wxml.Template
import Wxml.Cursor.Body

/-!
# Events of a template

A template source is first read as a sequence of events: an element is opened, an element is closed,
a node stands complete.  What an event is depends only on the text ahead, not on the elements that
are open.  `Event.readBy` reads one event and always moves on; `Event.scanBy` reads them all and
ends in a fault event if the source is malformed.

The content of a text is not what the cursor passes: it is cut out of the source by the span of the
text, whose ends have 32 bits.  The readers take the way of cutting as an argument.
-/

namespace Wxml

namespace Template

/-- A step in the reading of a template. -/
inductive Event where
  /-- The opening tag of an element whose children follow; its span is that of the tag. -/
  | opened (head : Element)
  /-- A node that needs nothing more. -/
  | complete (node : Node)
  /-- A closing tag: its name, the span up to the end of the name, and the offset after it. -/
  | closed (name : Text) (span : Span) (stop : Nat)
  /-- Nothing can be read any more. -/
  | failed (fault : Fault)
  deriving Repr

/-- Whether an element starts here: a `<` and a letter. -/
def startsElement : Text → Bool
  | '<' :: c :: _ => c.isAlpha
  | _ => false

/-- Whether text ends here: before an interpolation, a tag or a comment. -/
def startsMarkup (t : Text) : Bool :=
  ("\x7b\x7b" : Text).isPrefixOf t || ("</" : Text).isPrefixOf t || ("<!--" : Text).isPrefixOf t ||
    startsElement t

/-- The characters before the next markup. -/
def plainText : Text → Text
  | [] => []
  | c :: t => if startsMarkup (c :: t) then [] else c :: plainText t

/-- The text node with a content, unless that is blank. -/
def textNode? (content : Text) (span : Span) : Option Node :=
  if Text.allBlank content then none else some (.text content span)

namespace Event

/-- The opening tag that starts here, up to its `>`. -/
def readTag (c : Cursor) : Except Fault (Element × Cursor) :=
  let inside := c.advance 1
  let (tag, named) := inside.takeWhile Cursor.isTagChar
  match Attribute.readDistinct [] named with
  | .error fault => .error (.inTag fault)
  | .ok (attributes, close) =>
    let head (selfClosing : Bool) (after : Cursor) : Element :=
      ⟨tag, attributes, selfClosing, after.spanFrom c.offset, named.spanFrom inside.offset⟩
    match close.consume? "/>" with
    | some after => .ok (head true after, after)
    | none =>
      match close.consume? ">" with
      | some after => .ok (head false after, after)
      | none => .error (.unclosedElement tag (close.spanFrom c.offset))

/-- The element that starts here.  Elements without children of their own are complete: those that
are self-closing, void ones, after which a redundant closing tag is read too, and those of raw
text. -/
def readElement (c : Cursor) : Except Fault (Event × Cursor) :=
  match readTag c with
  | .error fault => .error fault
  | .ok (head, after) =>
    let whole (last : Cursor) : Element := { head with span := last.spanFrom c.offset }
    if head.selfClosing then .ok (.complete (.element head []), after)
    else if isVoid head.tag then
      let last := if after.startsWith ("</" ++ head.tag) then after.skipTag else after
      .ok (.complete (.element (whole last) []), last)
    else if isRawText head.tag then
      let (content, closing) := after.body head.tag
      if closing.atEnd then .error (.unclosedElement head.tag head.span)
      else
        let children := (textNode? content (closing.spanFrom after.offset)).toList
        .ok (.complete (.element (whole closing.skipTag) children), closing.skipTag)
    else .ok (.opened head, after)

/-- The closing tag that starts here. -/
def readClosing (c : Cursor) : Event × Cursor :=
  let name := (c.rest.drop 2).takeWhile Cursor.isTagChar
  (.closed name ⟨c.offset, c.offset + 2 + Text.size name⟩ c.skipTag.offset, c.skipTag)

/-- The interpolation that starts here. -/
def readInterpolation (c : Cursor) : Except Fault (Event × Cursor) :=
  let (raw, close) := (c.advance 2).takeUntil "\x7d\x7d"
  match close.consume? "\x7d\x7d" with
  | some after => .ok (.complete (.expression raw (after.spanFrom c.offset)), after)
  | none => .error (.unterminatedInterpolation ⟨c.offset, c.offset + 2⟩)

/-- The text that starts here, whatever its first character is.  `cut` gives its content from its
span and the characters passed. -/
def readTextBy (cut : Span → Text → Option Text) (c : Cursor) :
    Except Fault (Option Event × Cursor) :=
  let after := c.advance (1 + (plainText (c.rest.drop 1)).length)
  let span := after.spanFrom c.offset
  match cut span (c.rest.take 1 ++ plainText (c.rest.drop 1)) with
  | none => .error (.aborted span)
  | some content => .ok ((textNode? content span).map .complete, after)

/-- The event ahead and the cursor after it; blank text is no event. -/
def readBy (cut : Span → Text → Option Text) (c : Cursor) : Except Fault (Option Event × Cursor) :=
  if c.startsWith "</" then
    let (event, after) := readClosing c
    .ok (some event, after)
  else if c.startsWith "<!--" then
    match c.comment? with
    | some (content, after) =>
      .ok (some (.complete (.comment content (after.spanFrom c.offset))), after)
    | none => .error (.unterminatedComment ⟨c.offset, c.offset + 4⟩)
  else if startsElement c.rest then
    match readElement c with
    | .ok (event, after) => .ok (some event, after)
    | .error fault => .error fault
  else if c.startsWith "\x7b\x7b" then
    match readInterpolation c with
    | .ok (event, after) => .ok (some event, after)
    | .error fault => .error fault
  else readTextBy cut c

/-! ### Progress -/

theorem length_consume?_le {c c' : Cursor} {pattern : Text} (h : c.consume? pattern = some c') :
    c'.rest.length ≤ c.rest.length := by
  have := c.length_consume_le pattern
  rwa [Cursor.consume, h] at this

theorem length_advance_lt {c : Cursor} (hc : c.rest ≠ []) (n : Nat) :
    (c.advance (n + 1)).rest.length < c.rest.length := by
  have := List.length_pos_iff.2 hc
  simp only [Cursor.advance_rest, List.length_drop]
  omega

theorem length_readTag_lt {c c' : Cursor} {head : Element} (hc : c.rest ≠ [])
    (h : readTag c = .ok (head, c')) : c'.rest.length < c.rest.length := by
  have h₁ : (c.advance 1).rest.length < c.rest.length := length_advance_lt hc 0
  have h₂ := (c.advance 1).length_takeWhile_le Cursor.isTagChar
  unfold readTag at h
  simp only at h
  split at h
  · simp at h
  · rename_i attributes close hattr
    have h₃ := Attribute.length_readDistinct_le [] _ hattr
    split at h
    · rename_i after hafter
      have h₄ := length_consume?_le hafter
      simp only [Except.ok.injEq, Prod.mk.injEq] at h
      rw [← h.2]
      omega
    · split at h
      · rename_i after hafter
        have h₄ := length_consume?_le hafter
        simp only [Except.ok.injEq, Prod.mk.injEq] at h
        rw [← h.2]
        omega
      · simp at h

theorem length_readElement_lt {c c' : Cursor} {event : Event} (hc : c.rest ≠ [])
    (h : readElement c = .ok (event, c')) : c'.rest.length < c.rest.length := by
  unfold readElement at h
  split at h
  · simp at h
  · rename_i head after htag
    have h₁ := length_readTag_lt hc htag
    have h₂ := after.length_skipTag_le
    simp only at h
    split at h
    · simp only [Except.ok.injEq, Prod.mk.injEq] at h
      rw [← h.2]
      exact h₁
    · split at h
      · simp only [Except.ok.injEq, Prod.mk.injEq] at h
        rw [← h.2]
        split <;> omega
      · split at h
        · split at h
          · simp at h
          · simp only [Except.ok.injEq, Prod.mk.injEq] at h
            have h₃ := after.length_body_le head.tag
            have h₄ := (after.body head.tag).2.length_skipTag_le
            rw [← h.2]
            omega
        · simp only [Except.ok.injEq, Prod.mk.injEq] at h
          rw [← h.2]
          exact h₁

theorem length_readInterpolation_lt {c c' : Cursor} {event : Event} (hc : c.rest ≠ [])
    (h : readInterpolation c = .ok (event, c')) : c'.rest.length < c.rest.length := by
  have h₁ : (c.advance 2).rest.length < c.rest.length := length_advance_lt hc 1
  have h₂ := (c.advance 2).length_takeUntil_le "\x7d\x7d"
  unfold readInterpolation at h
  simp only at h
  split at h
  · rename_i after hafter
    have h₃ := length_consume?_le hafter
    simp only [Except.ok.injEq, Prod.mk.injEq] at h
    rw [← h.2]
    omega
  · simp at h

theorem length_skipTag_lt {c : Cursor} (h : c.startsWith "</" = true) :
    c.skipTag.rest.length < c.rest.length := by
  obtain ⟨offset, rest⟩ := c
  simp only [Cursor.startsWith] at h
  match rest, h with
  | [_], h => simp [List.isPrefixOf] at h
  | a :: b :: t, h =>
    have hab : a = '<' ∧ b = '/' := by
      simp [List.isPrefixOf] at h
      exact ⟨h.1.symm, h.2.symm⟩
    obtain ⟨rfl, rfl⟩ := hab
    refine Nat.lt_of_le_of_lt (Cursor.length_consume_le _ _) ?_
    simp only [Cursor.takeUntil, Cursor.advance_rest, List.length_drop]
    have : (Text.breakOn ">" ('<' :: '/' :: t)).1.length ≠ 0 := by
      simp [Text.breakOn, List.isPrefixOf]
    simp only [List.length_cons]
    omega

theorem length_readTextBy_lt {cut : Span → Text → Option Text} {c c' : Cursor}
    {event : Option Event} (hc : c.rest ≠ []) (h : readTextBy cut c = .ok (event, c')) :
    c'.rest.length < c.rest.length := by
  unfold readTextBy at h
  simp only at h
  split at h
  · simp at h
  · simp only [Except.ok.injEq, Prod.mk.injEq] at h
    rw [← h.2, Nat.add_comm]
    exact length_advance_lt hc _

theorem length_readBy_lt {cut : Span → Text → Option Text} {c c' : Cursor} {event : Option Event}
    (hc : c.rest ≠ []) (h : readBy cut c = .ok (event, c')) : c'.rest.length < c.rest.length := by
  unfold readBy at h
  split at h
  · rename_i hclose
    simp only [readClosing, Except.ok.injEq, Prod.mk.injEq] at h
    rw [← h.2]
    exact length_skipTag_lt hclose
  · split at h
    · split at h
      · rename_i content after hcomment
        simp only [Except.ok.injEq, Prod.mk.injEq] at h
        rw [← h.2]
        exact Cursor.length_comment?_lt hcomment
      · simp at h
    · split at h
      · split at h
        · rename_i ev after hel
          simp only [Except.ok.injEq, Prod.mk.injEq] at h
          rw [← h.2]
          exact length_readElement_lt hc hel
        · simp at h
      · split at h
        · split at h
          · rename_i ev after hel
            simp only [Except.ok.injEq, Prod.mk.injEq] at h
            rw [← h.2]
            exact length_readInterpolation_lt hc hel
          · simp at h
        · exact length_readTextBy_lt hc h

/-- The events from the cursor on. -/
def scanBy (cut : Span → Text → Option Text) (c : Cursor) : List Event :=
  if _hend : c.rest = [] then []
  else
    match _hread : readBy cut c with
    | .error fault => [.failed fault]
    | .ok (event, after) => event.toList ++ scanBy cut after
termination_by c.rest.length
decreasing_by exact length_readBy_lt _hend _hread

end Event

end Template

end Wxml
