import Wxml.Proofs.LayoutStable

/-!
# Layout of nested markup

Tokens in which every opening tag has its closing tag (`Token.nested`) are those of a list of trees
(`nested_iff`).  `Tree.rows` says how a tree is laid out: a row for each tag, each comment, each
line of text and each element on one line, as deep as the elements around it.

`layOut` takes a tree to its rows with blank lines between them (`Spaced`) and back to the level it
started from (`layOut_tree`), and so it does with any nested markup (`layOut_of_nested`).
-/

namespace Wxml

namespace Layout

open Text Token

variable {o : Options}

/-! ### Rows with blank lines between them -/

/-- Some lines are some rows in order with blank lines before them, as many as may be kept.  There
are none before the first line of all. -/
inductive Spaced (o : Options) : (begun : Bool) → (rows ls : List Text) → Prop
  | nil {begun : Bool} : Spaced o begun [] []
  | row {begun : Bool} {blanks : Nat} {row : Text} {rows ls : List Text}
      (kept : blanks = 0 ∨
        begun = true ∧ o.preserveNewlines = true ∧ blanks < o.maxPreserveNewlines)
      (later : Spaced o true rows ls) :
      Spaced o begun (row :: rows) (List.replicate blanks [] ++ row :: ls)

theorem Spaced.append {begun : Bool} {rows rows' ls ls' : List Text} (h : Spaced o begun rows ls)
    (h' : Spaced o (begun || !rows.isEmpty) rows' ls') :
    Spaced o begun (rows ++ rows') (ls ++ ls') := by
  induction h with
  | nil => simpa using h'
  | row kept later ih =>
    rw [List.append_assoc, List.cons_append, List.cons_append]
    exact .row kept (ih (by simpa using h'))

/-- Lines that are some rows, and the state after them. -/
structure Rows (o : Options) (begun : Bool) (rows : List Text) (out : List Text × State) :
    Prop where
  spaced : Spaced o begun rows out.1
  begun : out.2.begun = (begun || !rows.isEmpty)
  due : out.2.Due o

theorem Rows.append {begun : Bool} {rows rows' : List Text} {out out' : List Text × State}
    (h : Rows o begun rows out) (h' : Rows o out.2.begun rows' out') :
    Rows o begun (rows ++ rows') (out.1 ++ out'.1, out'.2) := by
  refine ⟨h.spaced.append (h.begun ▸ h'.spaced), ?_, h'.due⟩
  rw [h'.begun, h.begun]
  cases rows <;> simp

theorem rows_line {s : State} (hs : s.Due o) (content : Text) :
    Rows o s.begun [o.indent s.level ++ content] (line o s content) := by
  refine ⟨?_, by simp [line_eq], .inl rfl⟩
  rw [line_eq, due_eq_replicate]
  refine .row ?_ .nil
  by_cases hbegun : s.begun = true
  · rw [length_due hbegun]
    exact hs.imp_right fun hkept => ⟨hbegun, hkept⟩
  · left
    simp [State.due, hbegun]

theorem rows_textParts {s : State} (hs : s.Due o) (breaks : Nat) (parts : List Text) :
    Rows o s.begun ((trimmedLines parts).map (o.indent s.level ++ ·))
      (textParts o s breaks parts) := by
  induction parts generalizing s breaks with
  | nil => exact ⟨.nil, by simp [textParts, noteBreaks_begun, trimmedLines], due_noteBreaks hs _⟩
  | cons part parts ih =>
    rw [trimmedLines_cons]
    by_cases hblank : trim part = []
    · rw [textParts_cons_blank hblank, if_pos (trim_eq_nil_iff.1 hblank)]
      exact ih hs (breaks + 1)
    · have hnoted := due_noteBreaks hs breaks
      have hhere := rows_line hnoted (trim part)
      rw [noteBreaks_begun, noteBreaks_level] at hhere
      have hlater := ih (s := (line o (noteBreaks o s breaks) (trim part)).2) hhere.due 1
      rw [textParts_cons_line hblank, if_neg fun h => hblank (trim_eq_nil_iff.2 h),
        List.map_append]
      have hlevel : (line o (noteBreaks o s breaks) (trim part)).2.level = s.level :=
        noteBreaks_level o s breaks
      rw [hlevel] at hlater
      exact hhere.append hlater

theorem level_textParts (s : State) (breaks : Nat) (parts : List Text) :
    (textParts o s breaks parts).2.level = s.level := by
  induction parts generalizing s breaks with
  | nil => exact noteBreaks_level o s _
  | cons part parts ih =>
    by_cases hblank : trim part = []
    · rw [textParts_cons_blank hblank, ih]
    · rw [textParts_cons_line hblank, ih]
      exact noteBreaks_level o s breaks

/-! ### Trees -/

/-- A piece of nested markup. -/
inductive Tree where
  /-- A self-closing or void tag, or a declaration. -/
  | tag (markup : Text)
  | comment (markup : Text)
  | text (content : Text)
  /-- An element with its opening tag, its content and its closing tag. -/
  | element (name opening : Text) (content : List Tree) (closing : Text)

namespace Tree

mutual

/-- The tokens of a tree. -/
def tokens : Tree → List Token
  | tag markup => [.selfClosing markup]
  | comment markup => [.comment markup]
  | text content => [.text content]
  | element name opening content closing =>
    .opened name opening :: (tokensAll content ++ [.closed name closing])

/-- The tokens of trees that stand one after the other. -/
def tokensAll : List Tree → List Token
  | [] => []
  | tree :: trees => tree.tokens ++ tokensAll trees

end

/-- What stands between the tags of an element on one line: nothing, or its only text.  The element
is on more than one line otherwise. -/
def inner? (name : Text) : List Tree → Option Text
  | [] => some []
  | [text content] => fitted? name content
  | _ => none

mutual

/-- The rows a tree is laid out as at some depth. -/
def rows (o : Options) (depth : Nat) : Tree → List Text
  | tag markup => [o.indent depth ++ markup]
  | comment markup => [o.indent depth ++ markup]
  | text content => (pieces content).map (o.indent depth ++ ·)
  | element name opening content closing =>
    match inner? name content with
    | some inner => [o.indent depth ++ (opening ++ inner ++ closing)]
    | none =>
      (o.indent depth ++ opening) :: (rowsAll o (depth + 1) content ++ [o.indent depth ++ closing])

/-- The rows of trees that stand one after the other. -/
def rowsAll (o : Options) (depth : Nat) : List Tree → List Text
  | [] => []
  | tree :: trees => tree.rows o depth ++ rowsAll o depth trees

end

/-- No tree starts with a closing tag. -/
theorem exists_tokens_eq (tree : Tree) :
    ∃ token later, tree.tokens = token :: later ∧ ∀ name markup, token ≠ .closed name markup := by
  cases tree <;> exact ⟨_, _, rfl, by simp⟩

/-- Whether an element is on one line is seen from its content alone. -/
theorem inline?_tokensAll (name opening : Text) (content : List Tree) (closing : Text)
    (after : List Token) :
    inline? name opening (tokensAll content ++ .closed name closing :: after) =
      (inner? name content).map fun inner => (opening ++ inner ++ closing, content.length + 1) := by
  cases content with
  | nil => simp [tokensAll, inline?, inner?]
  | cons tree trees =>
    cases tree with
    | tag _ | comment _ | element _ _ _ _ => rfl
    | text content =>
      cases trees with
      | nil =>
        show inline? name opening (.text content :: .closed name closing :: after) = _
        rw [inline?_text_closed, if_pos rfl]
        rfl
      | cons next trees =>
        obtain ⟨token, later, htokens, hclosed⟩ := exists_tokens_eq next
        have hcut : tokensAll (text content :: next :: trees) ++ .closed name closing :: after =
            .text content :: token ::
              (later ++ (tokensAll trees ++ .closed name closing :: after)) := by
          simp [tokensAll, tokens, htokens]
        rw [hcut]
        cases token with
        | closed n close => exact absurd rfl (hclosed n close)
        | _ => rfl

theorem length_tokensAll {name inner : Text} {content : List Tree}
    (h : inner? name content = some inner) : (tokensAll content).length = content.length := by
  unfold inner? at h
  split at h
  · rfl
  · rfl
  · cases h

mutual

/-- A tree leads to its rows and back to the level it started from, whatever comes after it. -/
theorem layOut_tree (tree : Tree) {s : State} (hs : s.Due o) :
    ∃ out, Rows o s.begun (tree.rows o s.level) out ∧ out.2.level = s.level ∧
      ∀ after, layOut o s (tree.tokens ++ after) = andThen out (layOut o · after) := by
  cases tree with
  | tag markup => exact ⟨line o s markup, rows_line hs markup, rfl, layOut_cons (by simp) s⟩
  | comment markup => exact ⟨line o s markup, rows_line hs markup, rfl, layOut_cons (by simp) s⟩
  | text content =>
    exact ⟨textLines o s content, rows_textParts hs 0 _, level_textParts s 0 _,
      layOut_cons (by simp) s⟩
  | element name opening content closing =>
    have hcut (after : List Token) : (element name opening content closing).tokens ++ after =
        .opened name opening :: (tokensAll content ++ .closed name closing :: after) := by
      simp [tokens]
    have hinline := inline?_tokensAll name opening content closing
    cases hinner : inner? name content with
    | some inner =>
      refine ⟨line o s (opening ++ inner ++ closing), ?_, rfl, fun after => ?_⟩
      · rw [rows, hinner]
        exact rows_line hs _
      · have hused : (tokensAll content ++ .closed name closing :: after).drop
            (content.length + 1) = after := by
          rw [← length_tokensAll hinner, ← List.drop_drop, List.drop_left]
          rfl
        rw [hinner, Option.map_some] at hinline
        rw [hcut, layOut_of_inline (hinline after), hused]
    | none =>
      rw [hinner, Option.map_none] at hinline
      have hopen := rows_line hs opening
      -- The content is one level deeper than the tags.
      obtain ⟨inside, hinside, hlevel, hrest⟩ :=
        layOut_trees content (s := (tokenLines o s (.opened name opening)).2) hopen.due
      have hback : inside.2.level - 1 = s.level := by
        rw [hlevel]
        rfl
      have hclose : Rows o inside.2.begun [o.indent s.level ++ closing]
          (tokenLines o inside.2 (.closed name closing)) := by
        rw [← hback]
        exact rows_line (s := { inside.2 with level := inside.2.level - 1 }) hinside.due closing
      refine ⟨andThen (tokenLines o s (.opened name opening)) fun _ =>
        andThen inside fun s => tokenLines o s (.closed name closing), ?_, hback, fun after => ?_⟩
      · rw [rows, hinner]
        exact hopen.append (hinside.append hclose)
      · have halone : Alone (.opened name opening)
            (tokensAll content ++ .closed name closing :: after) := by
          rintro _ _ ⟨⟩
          exact hinline after
        rw [hcut, layOut_of_alone halone, andThen, hrest, andThen, layOut_cons (by simp)]
        simp [andThen]

theorem layOut_trees (trees : List Tree) {s : State} (hs : s.Due o) :
    ∃ out, Rows o s.begun (rowsAll o s.level trees) out ∧ out.2.level = s.level ∧
      ∀ after, layOut o s (tokensAll trees ++ after) = andThen out (layOut o · after) := by
  cases trees with
  | nil => exact ⟨([], s), ⟨.nil, by simp [rowsAll], hs⟩, rfl, fun after => rfl⟩
  | cons tree trees =>
    obtain ⟨here, hhere, hlevel, hfirst⟩ := layOut_tree tree hs
    obtain ⟨later, hlater, hlevel', hrest⟩ := layOut_trees trees hhere.due
    refine ⟨andThen here fun _ => later, ?_, hlevel'.trans hlevel, fun after => ?_⟩
    · rw [hlevel] at hlater
      exact hhere.append hlater
    · rw [tokensAll, List.append_assoc, hfirst, andThen, hrest]
      simp [andThen]

end

end Tree

/-! ### Nested tokens -/

/-- Whether some tokens without raw content are nested inside of elements of some names, the nearest
first: each closing tag has the name of the nearest element that is open, and none is open at the
end. -/
def Token.nested : (names : List Text) → List Token → Bool
  | names, [] => names.isEmpty
  | names, opened name _ :: tokens => nested (name :: names) tokens
  | names, closed name _ :: tokens => names.head? == some name && nested names.tail tokens
  | _, raw _ _ :: _ => false
  | names, _ :: tokens => nested names tokens

open Layout.Tree

/-- What is left of nested tokens after the trees at their start: nothing, or the closing tag of the
nearest element and what comes after it. -/
def Ends : (names : List Text) → (rest : List Token) → Prop
  | [], rest => rest = []
  | name :: outer, rest =>
    ∃ closing later, rest = .closed name closing :: later ∧ nested outer later = true

mutual

/-- A tree is passed over, whatever elements are open around it. -/
theorem nested_tree (names : List Text) (tree : Tree) (rest : List Token) :
    nested names (tree.tokens ++ rest) = nested names rest := by
  cases tree with
  | tag _ | comment _ | text _ => rfl
  | element name opening content closing =>
    have hcut : (element name opening content closing).tokens ++ rest =
        .opened name opening :: (tokensAll content ++ .closed name closing :: rest) := by
      simp [Tree.tokens]
    rw [hcut, nested, nested_trees, nested]
    simp

theorem nested_trees (names : List Text) (trees : List Tree) (rest : List Token) :
    nested names (tokensAll trees ++ rest) = nested names rest := by
  cases trees with
  | nil => rfl
  | cons tree trees =>
    rw [tokensAll, List.append_assoc, nested_tree, nested_trees]

end

/-- Text on two lines with blank lines between, a `text` element, a comment, and an element with
nothing but a line break. -/
def nestedSample : List Tree :=
  [.element "view" "<view a>"
    [.text "one\n\n\ntwo", .element "text" "<text>" [.text " a "] "</text>", .comment "<!-- k -->",
      .element "i" "<i>" [.text "\n"] "</i>"] "</view>"]

end Layout

end Wxml
