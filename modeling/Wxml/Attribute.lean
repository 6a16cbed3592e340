import Wxml.Cursor

/-!
# Attributes

An attribute of a tag: its name as written, its value unless it is a flag, and where it stands.
There are two readers for the attributes of a tag.  Both stop before the end of the tag and step
over characters that cannot start a name.  `Attribute.readAll` keeps every attribute;
`Attribute.readDistinct` refuses a name that was already given.
-/

namespace Wxml

/-- An attribute of a tag.  A flag has no value. -/
structure Attribute where
  key : Text
  value : Option Text
  span : Span
  deriving DecidableEq, Repr

namespace Attribute

/-- An attribute whose quoted value never ends. -/
structure Unterminated where
  key : Text
  span : Span
  deriving DecidableEq, Repr

/-- Why the attributes of a tag were refused. -/
inductive Fault where
  | unterminated (u : Unterminated)
  | duplicate (key : Text) (span : Span)
  deriving DecidableEq, Repr

/-- Whether the attributes of a tag end here: at the end of the tag or of the source. -/
def atTagEnd (c : Cursor) : Bool := c.atEnd || c.startsWith ">" || c.startsWith "/>"

/-- The value after an attribute name, with blanks around its equals sign, or none for a flag.  An
unclosed quote is answered with the cursor at the quote. -/
def readValue (c : Cursor) : Except Cursor (Option Text × Cursor) :=
  match c.skipBlanks.consume? "=" with
  | none => .ok (none, c.skipBlanks)
  | some c =>
    let c := c.skipBlanks
    if (c.peek?.map Cursor.isQuote).getD false then
      match c.quoted? with
      | some ((value, _), c) => .ok (some value, c)
      | none => .error c
    else
      let (value, c) := c.unquoted
      .ok (some value, c)

/-- The attribute ahead, if a name starts here.  Its span covers the blanks skipped in search of an
equals sign. -/
def read? (c : Cursor) : Option (Except Unterminated (Attribute × Cursor)) :=
  match c.attributeName? with
  | none => none
  | some (key, named) =>
    match readValue named with
    | .ok (value, after) => some (.ok (⟨key, value, after.spanFrom c.offset⟩, after))
    | .error stuck => some (.error ⟨key, stuck.spanFrom c.offset⟩)

theorem length_readValue_le {c c' : Cursor} {v : Option Text} (h : readValue c = .ok (v, c')) :
    c'.rest.length ≤ c.rest.length := by
  unfold readValue at h
  have h₁ := c.length_skipBlanks_le
  split at h
  · simp only [Except.ok.injEq, Prod.mk.injEq] at h
    rw [← h.2]
    exact h₁
  · rename_i d hd
    have h₂ : d.rest.length ≤ c.skipBlanks.rest.length := by
      have := c.skipBlanks.length_consume_le "="
      rwa [Cursor.consume, hd] at this
    have h₃ := d.length_skipBlanks_le
    simp only at h
    split at h
    · split at h
      · rename_i _ _ _ _ hq
        simp only [Except.ok.injEq, Prod.mk.injEq] at h
        have := Cursor.length_quoted?_lt hq
        rw [← h.2]
        omega
      · simp at h
    · simp only [Except.ok.injEq, Prod.mk.injEq] at h
      have := d.skipBlanks.length_takeWhile_le Cursor.isUnquotedChar
      rw [← h.2]
      simp only [Cursor.unquoted]
      omega

theorem length_read?_lt {c c' : Cursor} {a : Attribute} (h : read? c = some (.ok (a, c'))) :
    c'.rest.length < c.rest.length := by
  unfold read? at h
  split at h
  · simp at h
  · rename_i key named hname
    have h₁ := Cursor.length_name?_lt hname
    split at h
    · rename_i v after hv
      simp only [Option.some.injEq, Except.ok.injEq, Prod.mk.injEq] at h
      have h₂ := length_readValue_le hv
      rw [← h.2]
      omega
    · simp at h

theorem length_advance_lt {c : Cursor} (h : ¬ atTagEnd c.skipBlanks = true) :
    (c.skipBlanks.advance 1).rest.length < c.rest.length := by
  have h₁ := c.length_skipBlanks_le
  have h₂ : c.skipBlanks.rest ≠ [] := by
    intro hnil
    simp [atTagEnd, Cursor.atEnd, hnil] at h
  have h₃ := List.length_pos_iff.2 h₂
  simp only [Cursor.advance_rest, List.length_drop]
  omega

/-- All attributes of a tag, and the cursor where they end. -/
def readAll (c : Cursor) : Except Unterminated (List Attribute × Cursor) :=
  if _hend : atTagEnd c.skipBlanks then .ok ([], c.skipBlanks)
  else
    match _hread : read? c.skipBlanks with
    | none => readAll (c.skipBlanks.advance 1)
    | some (.error u) => .error u
    | some (.ok (a, after)) =>
      match readAll after with
      | .ok (more, last) => .ok (a :: more, last)
      | .error u => .error u
termination_by c.rest.length
decreasing_by
  · exact length_advance_lt _hend
  · exact Nat.lt_of_lt_of_le (length_read?_lt _hread) c.length_skipBlanks_le

/-- All attributes of a tag, none of which may repeat a key of `seen` or one before it. -/
def readDistinct (seen : List Text) (c : Cursor) : Except Fault (List Attribute × Cursor) :=
  if _hend : atTagEnd c.skipBlanks then .ok ([], c.skipBlanks)
  else
    match _hread : read? c.skipBlanks with
    | none => readDistinct seen (c.skipBlanks.advance 1)
    | some (.error u) => .error (.unterminated u)
    | some (.ok (a, after)) =>
      if seen.contains a.key then .error (.duplicate a.key a.span)
      else
        match readDistinct (a.key :: seen) after with
        | .ok (more, last) => .ok (a :: more, last)
        | .error f => .error f
termination_by c.rest.length
decreasing_by
  · exact length_advance_lt _hend
  · exact Nat.lt_of_lt_of_le (length_read?_lt _hread) c.length_skipBlanks_le

theorem length_readAll_le (c : Cursor) :
    ∀ {as : List Attribute} {c' : Cursor}, readAll c = .ok (as, c') →
      c'.rest.length ≤ c.rest.length := by
  fun_induction readAll c with
  | case1 c _ =>
    intro as c' h
    simp only [Except.ok.injEq, Prod.mk.injEq] at h
    rw [← h.2]
    exact c.length_skipBlanks_le
  | case2 c hend hread ih =>
    intro as c' h
    exact Nat.le_trans (ih h) (Nat.le_of_lt (length_advance_lt hend))
  | case3 => intro as c' h; simp at h
  | case4 c hend a after hread more last hmore ih =>
    intro as c' h
    simp only [Except.ok.injEq, Prod.mk.injEq] at h
    have h₁ := ih hmore
    have h₂ := length_read?_lt hread
    have h₃ := c.length_skipBlanks_le
    rw [← h.2]
    omega
  | case5 => intro as c' h; simp at h

theorem length_readDistinct_le (seen : List Text) (c : Cursor) :
    ∀ {as : List Attribute} {c' : Cursor}, readDistinct seen c = .ok (as, c') →
      c'.rest.length ≤ c.rest.length := by
  fun_induction readDistinct seen c with
  | case1 seen c _ =>
    intro as c' h
    simp only [Except.ok.injEq, Prod.mk.injEq] at h
    rw [← h.2]
    exact c.length_skipBlanks_le
  | case2 seen c hend hread ih =>
    intro as c' h
    exact Nat.le_trans (ih h) (Nat.le_of_lt (length_advance_lt hend))
  | case3 => intro as c' h; simp at h
  | case4 => intro as c' h; simp at h
  | case5 seen c hend a after hread hseen more last hmore ih =>
    intro as c' h
    simp only [Except.ok.injEq, Prod.mk.injEq] at h
    have h₁ := ih hmore
    have h₂ := length_read?_lt hread
    have h₃ := c.length_skipBlanks_le
    rw [← h.2]
    omega
  | case6 => intro as c' h; simp at h

/-! ### Looking up -/

/-- The first attribute with a key. -/
def find? (key : Text) (as : List Attribute) : Option Attribute := as.find? (·.key == key)

/-- The attributes with `key` set to `value`: a key that is already there keeps its place. -/
def set (key : Text) (value : Option Text) : List Attribute → List Attribute
  | [] => [⟨key, value, .empty 0⟩]
  | a :: as => if a.key == key then ⟨key, value, .empty 0⟩ :: as else a :: set key value as

end Attribute

end Wxml
