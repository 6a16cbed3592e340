import Wxml.Component
import Wxml.Cursor.Body

/-!
# Reading components

`Component.read` goes through a source item by item.  `Item.read` reads one comment or block, or
steps over something that is neither; it always moves on.
-/

namespace Wxml

namespace Component

/-- The block that starts at a `<`.  Without a tag name there is none, and the `<` is passed
over. -/
def Item.readBlock (c : Cursor) : Except Fault (Option Item × Cursor) :=
  let inside := (c.advance 1).skipBlanks
  match inside.tagName? with
  | none => .ok (none, inside)
  | some (tag, named) =>
    let name := Text.lower tag
    match Attribute.readAll named with
    | .error u => .error (.unterminatedValue u)
    | .ok (attributes, close) =>
      match close.consume? "/>" with
      | some after =>
        .ok (some (.block ⟨name, attributes, [], .empty after.offset,
          after.spanFrom c.offset⟩), after)
      | none =>
        let opened := close.consume ">"
        let (content, closing) := opened.body name
        if closing.atEnd then .error (.unclosed name ⟨c.offset, opened.offset⟩)
        else
          let after := closing.skipTag
          .ok (some (.block ⟨name, attributes, content, closing.spanFrom opened.offset,
            after.spanFrom c.offset⟩), after)

/-- The item ahead and the cursor after it; stray text is passed over a character at a time. -/
def Item.read (c : Cursor) : Except Fault (Option Item × Cursor) :=
  if c.startsWith "<!--" then
    match c.comment? with
    | some (content, after) => .ok (some (.comment ⟨content, after.spanFrom c.offset⟩), after)
    | none => .error (.unterminatedComment ⟨c.offset, c.offset + 4⟩)
  else if c.startsWith "<" && !c.startsWith "</" then Item.readBlock c
  else .ok (none, c.advance 1)

theorem Item.length_readBlock_lt {c c' : Cursor} {item : Option Item} (hc : c.rest ≠ [])
    (h : Item.readBlock c = .ok (item, c')) : c'.rest.length < c.rest.length := by
  have hpos := List.length_pos_iff.2 hc
  have hin : (c.advance 1).skipBlanks.rest.length < c.rest.length := by
    have h₁ := (c.advance 1).length_skipBlanks_le
    simp only [Cursor.advance_rest, List.length_drop] at h₁
    omega
  unfold Item.readBlock at h
  simp only at h
  split at h
  · simp only [Except.ok.injEq, Prod.mk.injEq] at h
    rw [← h.2]
    exact hin
  · rename_i tag named hname
    have h₁ := Cursor.length_name?_lt hname
    split at h
    · simp at h
    · rename_i attributes close hattr
      have h₂ := Attribute.length_readAll_le named hattr
      split at h
      · rename_i after hafter
        have h₃ := close.length_consume_le "/>"
        simp only [Cursor.consume, hafter, Option.getD_some] at h₃
        simp only [Except.ok.injEq, Prod.mk.injEq] at h
        rw [← h.2]
        omega
      · split at h
        · simp at h
        · simp only [Except.ok.injEq, Prod.mk.injEq] at h
          rw [← h.2]
          have h₃ := close.length_consume_le ">"
          have h₄ := (close.consume ">").length_body_le (Text.lower tag)
          have h₅ := ((close.consume ">").body (Text.lower tag)).2.length_skipTag_le
          omega

theorem Item.length_read_lt {c c' : Cursor} {item : Option Item} (hc : c.rest ≠ [])
    (h : Item.read c = .ok (item, c')) : c'.rest.length < c.rest.length := by
  unfold Item.read at h
  split at h
  · split at h
    · rename_i content after hcomment
      simp only [Except.ok.injEq, Prod.mk.injEq] at h
      rw [← h.2]
      exact Cursor.length_comment?_lt hcomment
    · simp at h
  · split at h
    · exact Item.length_readBlock_lt hc h
    · simp only [Except.ok.injEq, Prod.mk.injEq] at h
      have hpos := List.length_pos_iff.2 hc
      rw [← h.2]
      simp only [Cursor.advance_rest, List.length_drop]
      omega

/-- The component with all items from the cursor on added to it. -/
def readFrom (component : Component) (c : Cursor) : Except Fault Component :=
  if _hend : c.skipBlanks.rest = [] then .ok component
  else
    match _hread : Item.read c.skipBlanks with
    | .error fault => .error fault
    | .ok (none, after) => readFrom component after
    | .ok (some item, after) =>
      match component.add item with
      | .error fault => .error fault
      | .ok component => readFrom component after
termination_by c.rest.length
decreasing_by
  all_goals exact Nat.lt_of_lt_of_le (Item.length_read_lt _hend _hread) c.length_skipBlanks_le

/-- The component a source is. -/
def read (source : Text) : Except Fault Component := readFrom empty (.start source)

end Component

end Wxml
