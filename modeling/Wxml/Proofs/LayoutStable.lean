import Wxml.Proofs.RawLines

/-!
# Markup that was laid out once

What is written for the tokens of some markup has these tokens again, with other blanks between them
(`scan_written_sign`, `scan_written_unended`, `scan_written_text`), and raw contents as `again` says
(`scan_written_raw`).  An element stands on one line before exactly if it does so after
(`inline?_again`, `inline?_scan_written`).

`lines_scan_written` follows the tokens mark by mark.  For markup without raw content the result is
`format_format`.
-/

namespace Wxml

namespace Layout

open Text Token

variable {o : Options}

/-! ### Lines of tokens -/

theorem lines_nil (o : Options) (s : State) : lines o s [] = [] := by rw [lines, layOut]

theorem layOut_cons {token : Token} (h : ∀ name markup, token ≠ .opened name markup) (s : State)
    (later : List Token) :
    layOut o s (token :: later) = andThen (tokenLines o s token) (layOut o · later) := by
  rw [layOut]
  exact h

theorem layOut_of_inline {name markup content : Text} {used : Nat} {later : List Token}
    (h : inline? name markup later = some (content, used)) (s : State) :
    layOut o s (.opened name markup :: later) =
      andThen (line o s content) (layOut o · (later.drop used)) := by
  rw [layOut, h]

theorem lines_cons (o : Options) (s : State) {token : Token} (later : List Token)
    (h : ∀ name markup, token ≠ .opened name markup) :
    lines o s (token :: later) =
      (tokenLines o s token).1 ++ lines o (tokenLines o s token).2 later := by
  rw [lines, layOut_cons h]
  rfl

theorem lines_text? (o : Options) (s : State) (t : Text) (later : List Token) :
    lines o s (text? t ++ later) = (textLines o s t).1 ++ lines o (textLines o s t).2 later := by
  by_cases ht : t = []
  · subst ht
    rw [textLines_nil]
    rfl
  · rw [text?_of_ne_nil ht, List.singleton_append, lines_cons o s later (by simp)]
    rfl

theorem lines_raw {s : State} (hs : s.begun = true) (content : Text) (script : Bool)
    (later : List Token) :
    lines o s (.raw content script :: later) =
      rawRows o s.level script (rawBody content) ++ lines o s later := by
  rw [lines_cons o s later (by simp), tokenLines, rawLines_of_begun hs]

theorem lines_raw? {s : State} (hs : s.begun = true) (content : Text) (script : Bool)
    (later : List Token) :
    lines o s (raw? content script ++ later) =
      rawRows o s.level script (rawBody content) ++ lines o s later := by
  by_cases hcontent : content = []
  · subst hcontent
    rw [rawRows_of_blank (by decide)]
    rfl
  · rw [raw?_of_ne_nil hcontent, List.singleton_append, lines_raw hs]

/-- The level of the line that a tag or a comment is on. -/
def lineLevel (s : State) : Token → Nat
  | .closed _ _ => s.level - 1
  | _ => s.level

/-- The level after a tag or a comment. -/
def levelAfter (s : State) : Token → Nat
  | .opened _ _ => s.level + 1
  | .closed _ _ => s.level - 1
  | _ => s.level

theorem tokenLines_of_isMark {m : Token} (hm : m.isMark = true) (s : State) :
    tokenLines o s m =
      (s.due ++ [o.indent (lineLevel s m) ++ m.source], ⟨levelAfter s m, 0, true⟩) := by
  cases m with
  | text _ => cases hm
  | raw _ _ => cases hm
  | opened _ _ | closed _ _ | selfClosing _ | comment _ => rfl

/-- A mark that is not the start of an element on one line. -/
def Alone (m : Token) (later : List Token) : Prop :=
  ∀ name markup, m = .opened name markup → inline? name markup later = none

theorem closed_alone (name markup : Text) (later : List Token) :
    Alone (.closed name markup) later := by
  rintro _ _ ⟨⟩

theorem layOut_of_alone {token : Token} {later : List Token} (h : Alone token later) (s : State) :
    layOut o s (token :: later) = andThen (tokenLines o s token) (layOut o · later) := by
  cases token with
  | opened name markup => rw [layOut, h name markup rfl]
  | closed _ _ | selfClosing _ | comment _ | text _ | raw _ _ => exact layOut_cons (by simp) s later

theorem lines_of_alone {m : Token} (hm : m.isMark = true) (s : State) {later : List Token}
    (h : Alone m later) :
    lines o s (m :: later) =
      s.due ++ (o.indent (lineLevel s m) ++ m.source) ::
        lines o ⟨levelAfter s m, 0, true⟩ later := by
  rw [lines, layOut_of_alone h, andThen, tokenLines_of_isMark hm]
  simp only [lines, List.append_assoc, List.singleton_append]

theorem lines_comment (o : Options) (s : State) (markup : Text) (later : List Token) :
    lines o s (.comment markup :: later) =
      s.due ++ (o.indent s.level ++ markup) :: lines o ⟨s.level, 0, true⟩ later :=
  lines_of_alone (m := .comment markup) rfl s (by rintro _ _ ⟨⟩)

theorem lines_of_inline {name markup content : Text} {used : Nat} (s : State) {later : List Token}
    (h : inline? name markup later = some (content, used)) :
    lines o s (.opened name markup :: later) =
      s.due ++ (o.indent s.level ++ content) :: lines o ⟨s.level, 0, true⟩ (later.drop used) := by
  rw [lines, layOut_of_inline h, andThen, line_eq]
  simp only [lines, List.append_assoc, List.singleton_append]

/-- A mark stands alone, or it starts an element on one line. -/
theorem alone_or_inline (m : Token) (later : List Token) :
    Alone m later ∨ ∃ name markup content used,
      m = .opened name markup ∧ inline? name markup later = some (content, used) := by
  cases m with
  | opened name markup =>
    cases h : inline? name markup later with
    | none =>
      left
      rintro _ _ ⟨⟩
      exact h
    | some found => exact .inr ⟨name, markup, found.1, found.2, rfl, h⟩
  | _ => exact .inl (by rintro _ _ ⟨⟩)

theorem due_settled (s : State) : s.settled.due = s.due := by
  unfold State.settled
  split
  · rfl
  · rename_i hbegun
    simp [State.due, State.clear, hbegun]

theorem level_settled (s : State) : s.settled.level = s.level := by
  unfold State.settled
  split <;> rfl

/-- Blank lines that are never written make no difference. -/
theorem lines_settled {m : Token} (hm : m.isMark = true) (s : State) (later : List Token) :
    lines o s.settled (m :: later) = lines o s (m :: later) := by
  have hline : lineLevel s.settled m = lineLevel s m := by
    cases m <;> simp only [lineLevel, level_settled]
  have hafter : levelAfter s.settled m = levelAfter s m := by
    cases m <;> simp only [levelAfter, level_settled]
  rcases alone_or_inline m later with halone | ⟨name, markup, content, used, rfl, hinline⟩
  · rw [lines_of_alone hm _ halone, lines_of_alone hm _ halone, due_settled, hline, hafter]
  · rw [lines_of_inline _ hinline, lines_of_inline _ hinline, due_settled, level_settled]

/-! ### Text before a mark -/

/-- What is written of a text, up to the place of what comes after it on a line of some level. -/
def textBefore (o : Options) (s : State) (t : Text) (level : Nat) : Text :=
  written o s.begun ((textLines o s t).1 ++ ((textLines o s t).2.due ++ [o.indent level]))

section

variable {s : State} {t : Text} {level : Nat}

theorem written_textLines_append (o : Options) (s : State) (t : Text) (level : Nat) (content : Text)
    (more : List Text) :
    written o s.begun ((textLines o s t).1 ++
        ((textLines o s t).2.due ++ (o.indent level ++ content) :: more)) =
      textBefore o s t level ++ (content ++ written o true more) := by
  have h := written_append_cons o s.begun ((textLines o s t).1 ++ (textLines o s t).2.due)
    (o.indent level) content more
  rwa [List.append_assoc, List.append_assoc] at h

theorem pieces_textBefore (ho : o.Plain) (s : State) (t : Text) (level : Nat) :
    pieces (textBefore o s t level) = pieces t :=
  pieces_written_again ho s s.begun t (ho.allBlank_indent level) (ho.not_mem_indent level)

theorem scan_textBefore_append (ho : o.Plain) (ht : inside? false t = some false) {rest : Text}
    (hrest : startsMarkup rest = true) :
    scan o none (textBefore o s t level ++ rest) =
      text? (textBefore o s t level) ++ scan o none rest := by
  have hsame := inside?_eq_of_pieces_eq (pieces_textBefore ho s t level) false
  rw [ht] at hsame
  exact scan_text_append o hsame (.inr ⟨rfl, hrest⟩)

/-- The text before a mark is laid out as it is. -/
theorem textLines_textBefore (ho : o.Plain) (hs : s.blanks = 0)
    (hfirst : (textLines o s t).2.begun = false → level = 0) :
    textLines o s (textBefore o s t level) =
      ((textLines o s t).1, (textLines o s t).2.settled) := by
  refine textLines_again ho hs t (ho.allBlank_indent level) (ho.not_mem_indent level) fun h => ?_
  rw [hfirst h]
  rfl

theorem break_mem_textBefore (ho : o.Plain) (hs : s.begun = true) :
    '\n' ∈ textBefore o s t level := by
  obtain ⟨w, heol, -, -⟩ := ho.exists_eol
  rw [textBefore, hs, written, if_pos rfl, List.mem_flatten]
  refine ⟨o.eol ++ o.indent level, List.mem_map_of_mem (by simp), ?_⟩
  simp [heol]

end

/-! ### Elements on one line -/

/-- A text as it stands on one line with the tags around it, if it does. -/
def fitted? (name content : Text) : Option Text :=
  if name = ("text" : Text) ∧ content ≠ [] ∧ '\n' ∉ content then some content
  else if (pieces content).length = 1 then some (trim content)
  else none

theorem inline?_text_closed (name markup content n close : Text) (later : List Token) :
    inline? name markup (.text content :: .closed n close :: later) =
      if n = name then (fitted? name content).map fun inner => (markup ++ inner ++ close, 2)
      else none := by
  have hwhole : (name = ("text" : Text) && !content.isEmpty && !content.contains '\n') = true ↔
      name = ("text" : Text) ∧ content ≠ [] ∧ '\n' ∉ content := by
    simp [and_assoc, -String.reduceToList]
  have htrimmed : (!(trim content).isEmpty && !(trim content).contains '\n') = true ↔
      (pieces content).length = 1 := by
    rw [length_pieces_eq_one_iff]
    simp
  unfold inline? fitted?
  simp only [hwhole, htrimmed]
  split
  · split
    · rfl
    · split <;> rfl
  · rfl

theorem fitted?_eq_some {name content inner : Text} (h : fitted? name content = some inner) :
    (inner = content ∨ inner = trim content) ∧ inner ≠ [] ∧ fitted? name inner = some inner := by
  unfold fitted? at h
  split at h
  · rename_i hwhole
    cases h
    exact ⟨.inl rfl, hwhole.2.1, if_pos hwhole⟩
  · split at h
    · rename_i hpieces
      obtain ⟨hne, hbreak⟩ := (length_pieces_eq_one_iff content).1 hpieces
      cases h
      refine ⟨.inr rfl, hne, ?_⟩
      unfold fitted?
      split
      · rfl
      · rw [pieces_trim, if_pos hpieces, trim_trim]
    · cases h

/-- A text that does not stand on one line does not do so with other blanks. -/
theorem fitted?_eq_none {name content content' : Text} (h : fitted? name content = none)
    (hpieces : pieces content' = pieces content) (hbreak : '\n' ∈ content') :
    fitted? name content' = none := by
  have hlong : (pieces content).length ≠ 1 := by
    intro hone
    unfold fitted? at h
    rw [if_pos hone] at h
    split at h
    · cases h
    · cases h
  unfold fitted?
  rw [if_neg (by simp [hbreak]), hpieces, if_neg hlong]

/-- What an element on one line is made of. -/
theorem inline?_eq_some {name markup content : Text} {used : Nat} {later : List Token}
    (h : inline? name markup later = some (content, used)) :
    (∃ close rest, later = .closed name close :: rest ∧ content = markup ++ close ∧ used = 1) ∨
      ∃ whole inner close rest, later = .text whole :: .closed name close :: rest ∧
        fitted? name whole = some inner ∧ content = markup ++ inner ++ close ∧ used = 2 := by
  have hcases := h
  unfold inline? at hcases
  split at hcases
  · rename_i n close rest
    split at hcases
    · rename_i hn
      cases hcases
      exact .inl ⟨close, rest, by rw [hn], rfl, rfl⟩
    · cases hcases
  · rename_i whole n close rest
    rw [inline?_text_closed] at h
    split at h
    · rename_i hn
      obtain ⟨inner, hinner, hfound⟩ := Option.map_eq_some_iff.1 h
      cases hfound
      exact .inr ⟨whole, inner, close, rest, by rw [hn], hinner, rfl, rfl⟩
    · cases h
  · cases hcases

/-! ### Laying out again -/

/-- A state right after a line, or before the first one. -/
structure State.Ready (s : State) : Prop where
  blanks : s.blanks = 0
  level : s.begun = false → s.level = 0

theorem ready_start : State.start.Ready := ⟨rfl, fun _ => rfl⟩

theorem ready_after (level : Nat) : State.Ready ⟨level, 0, true⟩ := ⟨rfl, by simp⟩

theorem due_of_ready {s : State} (hs : s.Ready) : s.due = [] := by
  rw [State.due, hs.blanks]
  exact ite_self []

/-- What is between the last line of a raw content and the next token. -/
def gap (o : Options) (tail : Text) (level : Nat) : List Token → Text
  | [] => tail
  | token :: _ => o.eol ++ o.indent (lineLevel ⟨level, 0, true⟩ token)

/-- The tokens that are read from what is written for some tokens at a level, and `tail` after it.
A raw content has the lines it was laid out as, and a comment that does not end has all to the end
of the text. -/
def again (o : Options) (tail : Text) : (level : Nat) → List Token → List Token
  | _, [] => []
  | level, .raw content script :: later =>
    .raw (written o true (rawRows o level script (rawBody content)) ++ gap o tail level later)
      script :: again o tail level later
  | level, .opened name markup :: later => .opened name markup :: again o tail (level + 1) later
  | level, .closed name markup :: later => .closed name markup :: again o tail (level - 1) later
  | level, .comment markup :: later =>
    .comment (if later = [] ∧ ¬ ("-->" : Text) <:+: markup then markup ++ tail else markup) ::
      again o tail level later
  | level, token :: later => token :: again o tail level later

section

variable {tail : Text} {level : Nat} {later : List Token}

theorem allBlank_gap (ho : o.Plain) (htail : allBlank tail = true) (level : Nat)
    (later : List Token) : allBlank (gap o tail level later) = true := by
  cases later with
  | nil => exact htail
  | cons token later =>
    rw [gap, allBlank_append, ho.allBlank_eol, ho.allBlank_indent]
    rfl

theorem again_text? (t : Text) :
    again o tail level (text? t ++ later) = text? t ++ again o tail level later := by
  unfold text?
  split
  · rfl
  · rfl

theorem again_singleton_text? (t : Text) : again o tail level (text? t) = text? t := by
  unfold text?
  split
  · rfl
  · rfl

theorem again_unclosed {u : Text} (hu : Unclosed u) :
    again o tail level [.comment u] = [.comment (u ++ tail)] := by
  rw [again, if_pos ⟨rfl, hu.noEnd⟩, again]

theorem again_of_sign {m : Token} (hm : Sign m) (s : State) :
    again o tail s.level (m :: later) = m :: again o tail (levelAfter s m) later := by
  cases m with
  | text _ => cases hm.isMark
  | raw _ _ => cases hm.isMark
  | opened _ _ | closed _ _ | selfClosing _ => rfl
  | comment markup =>
    rw [again, if_neg fun h => h.2 (hm.ended markup rfl)]
    rfl

theorem inline?_again_tokens (name markup : Text) (level : Nat) (later : List Token) :
    inline? name markup (again o tail level later) = inline? name markup later := by
  cases later with
  | nil => rfl
  | cons token later =>
    cases token with
    | text content =>
      cases later with
      | nil => rfl
      | cons token later => cases token <;> rfl
    | _ => rfl

theorem Alone.again {m : Token} (h : Alone m later) : Alone m (again o tail level later) := by
  intro name markup hopened
  rw [inline?_again_tokens]
  exact h name markup hopened

end

section

variable {s : State} {t : Text} {m : Token} {later : List Token} {tail : Text}

theorem level_eq_zero (ho : o.Plain) (hs : s.Ready) (h : (textLines o s t).2.begun = false) :
    (textLines o s t).2.level = 0 := by
  have hlaid := textLines_laidOut ho s t
  have hbegun : s.begun = false := by
    rw [← Bool.not_eq_true] at h ⊢
    exact fun hs => h (hlaid.begun.2 (.inl hs))
  rw [hlaid.level, hs.level hbegun]

/-- A mark starts the line it is on. -/
theorem exists_lines_eq (hm : m.isMark = true) (s : State) (later : List Token) :
    ∃ rest more, lines o s (m :: later) =
      s.due ++ (o.indent (lineLevel s m) ++ (m.source ++ rest)) :: more := by
  rcases alone_or_inline m later with halone | ⟨name, markup, content, used, rfl, hinline⟩
  · refine ⟨[], lines o ⟨levelAfter s m, 0, true⟩ later, ?_⟩
    rw [List.append_nil, lines_of_alone hm s halone]
  · rcases inline?_eq_some hinline with
      ⟨close, rest, rfl, rfl, rfl⟩ | ⟨whole, inner, close, rest, rfl, -, rfl, rfl⟩
    · exact ⟨close, _, lines_of_inline s hinline⟩
    · rw [List.append_assoc] at hinline
      exact ⟨inner ++ close, _, lines_of_inline s hinline⟩

/-- A mark is read again after the text before it. -/
theorem scan_written_sign (ho : o.Plain) (ht : inside? false t = some false) (hm : Sign m)
    {rest : Text} {more : List Text}
    (hlines : lines o (textLines o s t).2 (m :: later) = (textLines o s t).2.due ++
      (o.indent (lineLevel (textLines o s t).2 m) ++ (m.source ++ rest)) :: more) :
    scan o none (written o s.begun (lines o s (text? t ++ m :: later)) ++ tail) =
      text? (textBefore o s t (lineLevel (textLines o s t).2 m)) ++
        m :: scan o (m.rawAfter o) (rest ++ (written o true more ++ tail)) := by
  rw [lines_text?, hlines, written_textLines_append, List.append_assoc, List.append_assoc,
    List.append_assoc, scan_textBefore_append ho ht (startsMarkup_append_right hm.starts _),
    scan_of_sign hm]

theorem lines_textBefore_mark (ho : o.Plain) (hs : s.Ready) (hm : m.isMark = true)
    (tokens : List Token) :
    lines o s (text? (textBefore o s t (lineLevel (textLines o s t).2 m)) ++ m :: tokens) =
      (textLines o s t).1 ++ lines o (textLines o s t).2 (m :: tokens) := by
  have hfirst : (textLines o s t).2.begun = false → lineLevel (textLines o s t).2 m = 0 := by
    intro h
    have hzero := level_eq_zero ho hs h
    cases m <;> simp only [lineLevel, hzero]
  rw [lines_text?, textLines_textBefore ho hs.blanks hfirst, lines_settled hm]

theorem unclosed_append {u : Text} (hu : Unclosed u) (htail : allBlank tail = true) :
    Unclosed (u ++ tail) := by
  have hsolid : ("-->" : Text).all (!isBlank ·) = true := by decide
  have hplain : ∀ c ∈ ("-->" : Text), isBlank c = false := by
    intro c hc
    simpa using List.all_eq_true.1 hsolid c hc
  refine ⟨hu.starts.trans (List.prefix_append ..), fun hend => ?_⟩
  exact hu.noEnd (isInfix_of_append_blank (by simp) hplain htail hend)

/-- A comment that does not end is read again with all that is written after it. -/
theorem scan_written_unclosed (ho : o.Plain) (htail : allBlank tail = true)
    (ht : inside? false t = some false) {u : Text} (hu : Unclosed u) :
    scan o none (written o s.begun (lines o s (text? t ++ [.comment u])) ++ tail) =
      text? (textBefore o s t (textLines o s t).2.level) ++ [.comment (u ++ tail)] := by
  have hunclosed := unclosed_append hu htail
  have hwritten : written o true [] = [] := rfl
  rw [lines_text?, lines_comment, lines_nil, written_textLines_append, hwritten, List.append_nil,
    List.append_assoc, scan_textBefore_append ho ht (startsMarkup_of_comment hunclosed.starts),
    scan_of_unclosed hunclosed]

end

theorem solid_flatten_map_append {sep : Text} (hsep : allBlank sep = true) (ls : List Text) :
    solid ((ls.map (sep ++ ·)).flatten) = solid ls.flatten :=
  solid_flatten_map fun l _ => by rw [solid_append, solid_eq_nil_iff.2 hsep, List.nil_append]

/-- A text cut after the content of its first line; `parts` are the other lines. -/
structure FirstLine (u content rest : Text) (parts : List Text) : Prop where
  whole : u = content ++ rest
  notEmpty : content ≠ []
  trimmed : trim content = content
  oneLine : '\n' ∉ content
  blank : ∀ d, rest.head? = some d → isBlank d = true
  solid : solid rest = solid parts.flatten
  split : (splitOn '\n' u).map trim = (content :: parts).map trim
  lines : ∀ part ∈ parts, '\n' ∉ part

theorem exists_firstLine {u : Text} (hu : ∀ d, u.head? = some d → isBlank d = false)
    (hne : u ≠ []) : ∃ content rest parts, FirstLine u content rest parts := by
  have hparts : ∀ part ∈ splitOn '\n' u, '\n' ∉ part := fun _ => not_mem_of_mem_splitOn
  have hwhole := join_splitOn '\n' u
  cases hsplit : splitOn '\n' u with
  | nil => exact absurd hsplit (splitOn_ne_nil _ _)
  | cons first parts =>
    rw [hsplit] at hparts hwhole
    rw [join_cons_eq] at hwhole
    obtain ⟨a, b, ha, hb, htrim⟩ := exists_eq_append_trim first
    have hblank : ∀ d, (b ++ (parts.map (['\n'] ++ ·)).flatten).head? = some d →
        isBlank d = true := by
      intro d hd
      rw [List.head?_append, Option.or_eq_some_iff] at hd
      rcases hd with hd | ⟨-, hd⟩
      · exact List.all_eq_true.1 hb d (List.mem_of_head? hd)
      · exact head?_flatten_map (by simp) (by decide) parts d hd
    have hcut : u = a ++ (trim first ++ (b ++ (parts.map (['\n'] ++ ·)).flatten)) := by
      rw [← hwhole]
      nth_rewrite 1 [htrim]
      simp
    have hstart : a = [] := by
      cases a with
      | nil => rfl
      | cons c a =>
        have hblank := List.all_eq_true.1 ha c List.mem_cons_self
        exact absurd rfl (ne_of_isBlank hblank (hu c (by rw [hcut]; rfl)))
    rw [hstart, List.nil_append] at hcut
    obtain ⟨hfirst, hparts⟩ := List.forall_mem_cons.1 hparts
    refine ⟨trim first, _, parts, hcut, fun hnil => ?_, trim_trim first,
      fun hmem => hfirst (mem_of_mem_trim hmem), hblank, ?_, ?_, hparts⟩
    · rw [hnil, List.nil_append] at hcut
      obtain ⟨c, rest, hrest⟩ := List.exists_cons_of_ne_nil hne
      have hc := hblank c (by rw [← hcut, hrest]; rfl)
      exact ne_of_isBlank hc (hu c (by rw [hrest]; rfl)) rfl
    · rw [solid_append, solid_eq_nil_iff.2 hb, solid_flatten_map_append (by decide),
        List.nil_append]
    · rw [hsplit, List.map_cons, List.map_cons, trim_trim]

/-- A tag that does not end starts the line it is on, and is laid out as it is. -/
theorem exists_textLines_eq (ho : o.Plain) {u : Text} (hu : Unended u) (s : State) :
    ∃ content more, (textLines o s u).1 = s.due ++ (o.indent s.level ++ content) :: more ∧
      (∃ rest, u = content ++ rest ∧ ∀ d, rest.head? = some d → isBlank d = true) ∧
      Unended (content ++ written o true more) ∧
      (textLines o s.settled (content ++ written o true more)).1 = (textLines o s u).1 := by
  have hhead := head?_of_startsMarkup hu.starts
  have hstart : ∀ d, u.head? = some d → isBlank d = false := by
    intro d hd
    rw [hhead] at hd
    cases hd
    decide
  obtain ⟨content, rest, parts, hline⟩ :=
    exists_firstLine hstart (ne_nil_of_startsMarkup hu.starts)
  have hcontent : trim content ≠ [] := by
    rw [hline.trimmed]
    exact hline.notEmpty
  have htext : ∀ {s : State} {v : Text} {parts : List Text},
      (splitOn '\n' v).map trim = (content :: parts).map trim →
      (textLines o s v).1 = s.due ++ (o.indent s.level ++ content) ::
        (textParts o ⟨s.level, 0, true⟩ 1 parts).1 := by
    intro s v parts hv
    rw [textLines, ← textParts_map_trim, hv, textParts_map_trim, textParts_cons_line hcontent,
      hline.trimmed, noteBreaks_zero, line_eq, List.append_assoc, List.singleton_append]
  refine ⟨content, (textParts o ⟨s.level, 0, true⟩ 1 parts).1, htext hline.split,
    ⟨rest, hline.whole, hline.blank⟩, ?_, ?_⟩
  · rw [hline.whole] at hu
    refine hu.move hline.blank (head?_flatten_map ho.eol_ne_nil ho.allBlank_eol _) ?_
    rw [written, if_pos rfl, solid_flatten_map_append ho.allBlank_eol,
      solid_textParts ho.allBlank_unit, hline.solid]
  · have hmore := (textParts_laidOut ho ⟨s.level, 0, true⟩ 1 parts).lines hline.lines
    have hagain := textParts_append_again ho parts (s := ⟨s.level, 0, true⟩) rfl 1 (.inl rfl) []
    rw [List.append_nil] at hagain
    rw [written, if_pos rfl, htext (map_trim_splitOn_append ho _ hline.oneLine hmore),
      htext hline.split, due_settled, level_settled, hagain]
    simp [textParts]

section

variable {s : State} {t u tail : Text}

theorem lines_singleton_text (o : Options) (s : State) (t : Text) :
    lines o s (text? t) = (textLines o s t).1 := by
  have h := lines_text? o s t []
  rwa [List.append_nil, lines_nil, List.append_nil] at h

theorem inside?_of_allBlank {w : Text} (hw : allBlank w = true) : inside? false w = some false := by
  have h := inside?_append_right false [] hw
  rwa [List.nil_append] at h

/-- Blanks make no line. -/
theorem lines_scan_blank (o : Options) (s : State) {w : Text} (hw : allBlank w = true) :
    lines o s (scan o none w) = [] := by
  have hnil : ([] : Text) = [] ∨ false = false ∧ startsMarkup [] = true := .inl rfl
  have hscan := scan_text_append o (inside?_of_allBlank hw) hnil
  rw [List.append_nil, scan_nil, List.append_nil] at hscan
  have hlines := fst_textLines_append (o := o) s [] hw
  rwa [textLines_nil, List.nil_append, ← lines_singleton_text, ← hscan] at hlines

/-- A tag that does not end is read again after the text before it. -/
theorem scan_written_unended (ho : o.Plain) (hs : s.Ready) (htail : allBlank tail = true)
    (ht : inside? false t = some false) (hu : Unended u) :
    ∃ before u', scan o none (written o s.begun (lines o s (text? t ++ text? u)) ++ tail) =
        text? before ++ text? u' ∧
      lines o s (text? before ++ text? u') = lines o s (text? t ++ text? u) := by
  obtain ⟨content, more, hlines, -, hunended, hagain⟩ :=
    exists_textLines_eq ho hu (textLines o s t).2
  have hlonger := hunended.append htail
  refine ⟨textBefore o s t (textLines o s t).2.level, content ++ written o true more ++ tail, ?_,
    ?_⟩
  · rw [lines_text?, lines_singleton_text, hlines, written_textLines_append, List.append_assoc,
      scan_textBefore_append ho ht hlonger.starts, scan_of_unended hlonger,
      text?_of_ne_nil (ne_nil_of_startsMarkup hlonger.starts)]
  · rw [lines_text?, lines_singleton_text, lines_text?, lines_singleton_text,
      textLines_textBefore ho hs.blanks (level_eq_zero ho hs), fst_textLines_append _ _ htail,
      hagain]

/-- Text at the end is read again as it is. -/
theorem scan_written_text (ho : o.Plain) (htail : allBlank tail = true) {after : Bool}
    (ht : inside? false t = some after) :
    scan o none (written o s.begun (textLines o s t).1 ++ tail) =
      text? (written o s.begun (textLines o s t).1 ++ tail) := by
  have hpieces : pieces (written o s.begun (textLines o s t).1) = pieces t := by
    rw [pieces_written ho s.begun (not_mem_textLines ho s t), (textLines_laidOut ho s t).pieces]
    rfl
  have hsame := inside?_eq_of_pieces_eq hpieces false
  rw [ht, ← inside?_append_right _ _ htail] at hsame
  have hnone : ([] : Text) = [] ∨ after = false ∧ startsMarkup [] = true := .inl rfl
  have hscan := scan_text_append o hsame hnone
  rwa [List.append_nil, scan_nil, List.append_nil] at hscan

theorem textLines_written_again (ho : o.Plain) (hs : s.blanks = 0) (t : Text) :
    (textLines o s (written o s.begun (textLines o s t).1)).1 = (textLines o s t).1 := by
  by_cases hne : s.begun = true ∨ (textLines o s t).1 ≠ []
  · have hnone : ∀ l ∈ ([] : List Text), '\n' ∉ l := by simp
    have h := textLines_written_append ho hs t hnone hne
    rw [List.append_nil] at h
    rw [h]
    simp [textParts]
  · simp only [not_or, Bool.not_eq_true, ne_eq, not_not] at hne
    rw [hne.1, hne.2]
    exact congrArg Prod.fst (textLines_nil o s)

end

section

variable {s : State} {e : RawElement} {content tail : Text} {later : List Token}

/-- Tokens at the end of a raw element: its closing tag, or one that does not end itself. -/
inductive Closing (e : RawElement) : List Token → Prop
  | tag {name markup : Text} {later : List Token} (h : e.closing <+: markup) :
      Closing e (.closed name markup :: later)
  | unended {u : Text} (hu : Unended u) (h : e.closing <+: u) : Closing e [.text u]

theorem Closing.ne_nil {tokens : List Token} (h : Closing e tokens) : tokens ≠ [] := by
  cases h <;> simp

theorem nil_or_closing (hclose : ∀ token, later.head? = some token → e.closing <+: token.source)
    (hlater : Lexed o none later) : later = [] ∨ Closing e later := by
  -- What reads like a closing tag is no text before markup.
  have htext {t : Text} {after : Bool} {tokens : List Token} (ht : inside? false t = some after)
      (hclose : ∀ token, (text? t ++ tokens).head? = some token → e.closing <+: token.source) :
      t = [] := by
    by_contra hnil
    rw [text?_of_ne_nil hnil] at hclose
    have hstarts : startsMarkup t = true := startsMarkup_of_closing (hclose _ rfl)
    rw [inside?_of_startsMarkup hstarts] at ht
    cases ht
  cases hlater with
  | @last t u after ht hu =>
    have hnil := htext ht hclose
    subst hnil
    rcases hu with rfl | ⟨-, hu⟩
    · exact .inl rfl
    · rw [text?_nil, List.nil_append, text?_of_ne_nil (ne_nil_of_startsMarkup hu.starts)] at *
      exact .inr (.unended hu (hclose _ rfl))
  | @unclosed t u ht hu =>
    have hnil := htext ht hclose
    subst hnil
    have hprefix := slash_of_closing (hclose _ rfl)
    exact absurd (List.prefix_or_prefix_of_prefix hprefix hu.starts) (by decide)
  | @sign t m later' ht hm hlater =>
    have hnil := htext ht hclose
    subst hnil
    obtain ⟨name, markup, rfl⟩ := hm.exists_closed (slash_of_closing (hclose _ rfl))
    exact .inr (.tag (hclose _ rfl))

/-- The closing tag of a raw element is at the start of its line. -/
theorem written_closing (ho : o.Plain) (hs : s.Ready) (he : e.Named) {tokens : List Token}
    (h : Closing e tokens) (tail : Text) :
    ∃ content, written o true (lines o s tokens) = gap o tail s.level tokens ++ content ∧
      e.closing <+: content := by
  cases h with
  | @tag name markup later h =>
    have hline := lines_of_alone (o := o) rfl s (closed_alone name markup later)
    rw [due_of_ready hs, source] at hline
    refine ⟨markup ++ written o true (lines o ⟨s.level - 1, 0, true⟩ later), ?_,
      h.trans (List.prefix_append ..)⟩
    rw [hline, gap]
    simp [written, lineLevel, levelAfter]
  | @unended u hu h =>
    obtain ⟨content, more, hlines, ⟨rest, rfl, hrest⟩, -, -⟩ := exists_textLines_eq ho hu s
    have hline := lines_singleton_text o s (content ++ rest)
    rw [hlines, due_of_ready hs, text?_of_ne_nil (ne_nil_of_startsMarkup hu.starts)] at hline
    have hcontent : e.closing <+: content := by
      refine prefix_of_prefix_append h fun d hd hmem => ?_
      exact ne_of_isBlank (hrest d hd) (he.not_isBlank d hmem) rfl
    refine ⟨content ++ written o true more, ?_, hcontent.trans (List.prefix_append ..)⟩
    rw [hline, gap]
    simp [written, lineLevel]

theorem written_true_append (o : Options) (ls ls' : List Text) :
    written o true (ls ++ ls') = written o true ls ++ written o true ls' := by
  simp [written]

/-- A raw content is read again as the lines it was laid out as, up to its closing tag. -/
theorem scan_written_raw (ho : o.Plain) (htail : allBlank tail = true) (hs : s.Ready)
    (hbegun : s.begun = true) (he : e.Named) (hcontent : ¬ e.closing <:+: content)
    (hclose : ∀ token, later.head? = some token → e.closing <+: token.source)
    (hlater : Lexed o none later) :
    ∃ after, scan o (some e)
          (written o true (lines o s (raw? content e.script ++ later)) ++ tail) =
        raw? (written o true (rawRows o s.level e.script (rawBody content)) ++
          gap o tail s.level later) e.script ++ scan o none after ∧
      (later = [] → after = []) ∧
      lines o s (scan o none (written o true (lines o s later) ++ tail)) =
        lines o s (scan o none after) := by
  have hblank := allBlank_gap ho htail s.level later
  rw [lines_raw? hbegun, written_true_append, scan_raw]
  rcases nil_or_closing hclose hlater with rfl | hclosing
  · refine ⟨[], ?_, fun _ => rfl, ?_⟩
    · have hwritten : written o true [] = [] := rfl
      rw [lines_nil, gap, hwritten, List.append_nil,
        breakOn_of_not_isInfix (not_isInfix_rows ho he hcontent htail)]
    · rw [lines_nil, scan_nil, lines_nil]
      exact lines_scan_blank o s htail
  · obtain ⟨line, hwritten, hprefix⟩ := written_closing ho hs he hclosing tail
    have hlong := hprefix.trans (List.prefix_append line tail)
    refine ⟨line ++ tail, ?_, ?_, ?_⟩
    · rw [hwritten, List.append_assoc, List.append_assoc, ← List.append_assoc,
        he.breakOn_append (not_isInfix_rows ho he hcontent hblank) hlong]
    · exact fun hnil => absurd hnil hclosing.ne_nil
    · have hstarts := startsMarkup_of_closing hlong
      obtain ⟨token, later', rfl⟩ := List.exists_cons_of_ne_nil hclosing.ne_nil
      rw [hwritten, List.append_assoc,
        scan_text_append o (inside?_of_allBlank hblank) (.inr ⟨rfl, hstarts⟩), lines_text?, gap,
        textLines_break ho s (ho.allBlank_indent _) (ho.not_mem_indent _)]
      rfl

end

theorem inline?_texts (name markup a b : Text) :
    inline? name markup (text? a ++ text? b) = none := by
  unfold text?
  split <;> split <;> rfl

/-- An element that does not stand on one line does not do so when its content was laid out. -/
theorem inline?_scan_written (ho : o.Plain) {tail : Text} (htail : allBlank tail = true)
    {element : Option RawElement} {tokens : List Token} (h : Lexed o element tokens) {s : State}
    (hs : s.Ready) (hbegun : s.begun = true) {name markup : Text}
    (hnone : inline? name markup tokens = none) :
    inline? name markup (scan o element (written o s.begun (lines o s tokens) ++ tail)) = none := by
  cases h with
  | @last t u after ht hu =>
    rcases hu with rfl | ⟨rfl, hu⟩
    · rw [text?_nil, List.append_nil, lines_singleton_text, scan_written_text ho htail ht]
      have := inline?_texts name markup (written o s.begun (textLines o s t).1 ++ tail) []
      rwa [text?_nil, List.append_nil] at this
    · obtain ⟨before, u', hscan, -⟩ := scan_written_unended ho hs htail ht hu
      rw [hscan, inline?_texts]
  | @unclosed t u ht hu =>
    rw [scan_written_unclosed ho htail ht hu]
    unfold text?
    split <;> rfl
  | @sign t m later ht hm hlater =>
    obtain ⟨rest, more, hlines⟩ := exists_lines_eq hm.isMark (textLines o s t).2 later
    have hpieces := pieces_textBefore ho s t (lineLevel (textLines o s t).2 m)
    have hbreak : '\n' ∈ textBefore o s t (lineLevel (textLines o s t).2 m) :=
      break_mem_textBefore ho hbegun
    rw [scan_written_sign ho ht hm hlines, text?_of_ne_nil (List.ne_nil_of_mem hbreak),
      List.singleton_append]
    cases m with
    | closed n close =>
      rw [inline?_text_closed]
      by_cases hn : n = name
      · have hfitted : fitted? name t = none := by
          by_cases hnil : t = []
          · subst hnil
            rw [text?_nil, List.nil_append, inline?, if_pos hn] at hnone
            cases hnone
          · rw [text?_of_ne_nil hnil, List.singleton_append, inline?_text_closed, if_pos hn,
              Option.map_eq_none_iff] at hnone
            exact hnone
        rw [if_pos hn, fitted?_eq_none hfitted hpieces hbreak]
        rfl
      · rw [if_neg hn]
    | _ => rfl
  | @raw e content later he hcontent hclose hlater =>
    obtain ⟨after, hscan, hlast, -⟩ :=
      scan_written_raw ho htail hs hbegun he hcontent hclose hlater
    rw [hbegun, hscan]
    by_cases hempty : written o true (rawRows o s.level e.script (rawBody content)) ++
        gap o tail s.level later = []
    · -- Only at the end is there nothing before the closing tag.
      cases later with
      | nil =>
        rw [hempty, hlast rfl, scan_nil]
        rfl
      | cons token later =>
        rw [gap, List.append_eq_nil_iff, List.append_eq_nil_iff] at hempty
        exact absurd hempty.2.1 ho.eol_ne_nil
    · rw [raw?_of_ne_nil hempty]
      rfl

section

variable {s : State} {later : List Token} {tail : Text}

/-- The text before a mark is laid out as it is, so only the mark and what comes after it count. -/
theorem lines_again_of_sign (ho : o.Plain) (hs : s.Ready) {t : Text} {m : Token}
    (ht : inside? false t = some false) (hm : Sign m) {rest : Text} {more : List Text}
    {tokens : List Token}
    (hlines : lines o (textLines o s t).2 (m :: later) = (textLines o s t).2.due ++
      (o.indent (lineLevel (textLines o s t).2 m) ++ (m.source ++ rest)) :: more)
    (hlater : lines o (textLines o s t).2
        (m :: scan o (m.rawAfter o) (rest ++ (written o true more ++ tail))) =
      lines o (textLines o s t).2 (m :: tokens)) :
    lines o s (scan o none (written o s.begun (lines o s (text? t ++ m :: later)) ++ tail)) =
      lines o s (text? t ++ m :: tokens) := by
  rw [scan_written_sign ho ht hm hlines, lines_textBefore_mark ho hs hm.isMark, hlater,
    lines_text?]

/-- A raw element without raw content: its closing tag comes next. -/
theorem closing_of_lexed {e : RawElement} {token : Token}
    (hraw : ∀ content script, token ≠ .raw content script)
    (h : Lexed o (some e) (token :: later)) :
    e.closing <+: token.source ∧ Lexed o none (token :: later) := by
  generalize htokens : token :: later = tokens at h
  cases h with
  | @raw _ content later' _ _ hclose hlater =>
    by_cases hnil : content = []
    · subst hnil
      have hsame : token :: later = later' := htokens
      subst hsame
      exact ⟨hclose token rfl, hlater⟩
    · rw [raw?_of_ne_nil hnil] at htokens
      cases htokens
      exact absurd rfl (hraw _ _)

/-- An element on one line is read again as that line. -/
theorem inline?_again {element : Option RawElement} {name markup content : Text} {used : Nat}
    (hlater : Lexed o element later) (h : inline? name markup later = some (content, used)) :
    Lexed o none (later.drop used) ∧ ∃ rest, content = markup ++ rest ∧
      ∀ after : Text, inline? name markup (scan o element (rest ++ after)) = some (content, used) ∧
        (scan o element (rest ++ after)).drop used = scan o none after := by
  rcases inline?_eq_some h with
    ⟨close, tail, rfl, rfl, rfl⟩ | ⟨whole, inner, close, tail, rfl, hfitted, rfl, rfl⟩
  · obtain ⟨hnone, hplain⟩ : Lexed o none (.closed name close :: tail) ∧
        ∀ after, scan o element (close ++ after) = scan o none (close ++ after) := by
      cases element with
      | none => exact ⟨hlater, fun _ => rfl⟩
      | some e =>
        obtain ⟨hclose, hnone⟩ := closing_of_lexed (by simp) hlater
        exact ⟨hnone, fun after => scan_of_closing (hclose.trans (List.prefix_append close after))⟩
    obtain ⟨-, hm, htail⟩ := Lexed.of_closed (t := []) hnone
    refine ⟨htail, close, rfl, fun after => ?_⟩
    have hscan := scan_of_sign (o := o) hm after
    rw [source] at hscan
    rw [hplain, hscan, inline?, if_pos rfl]
    exact ⟨rfl, rfl⟩
  · obtain ⟨hinner, hne, hagain⟩ := fitted?_eq_some hfitted
    have hwhole : whole ≠ [] := by
      rintro rfl
      rcases hinner with rfl | rfl
      · exact hne rfl
      · exact hne rfl
    have hcut : Token.text whole :: .closed name close :: tail =
        text? whole ++ .closed name close :: tail := by
      rw [text?_of_ne_nil hwhole]
      rfl
    cases element with
    | some e =>
      -- What reads like a closing tag is no text before one.
      obtain ⟨hclose, hnone⟩ := closing_of_lexed (by simp) hlater
      rw [hcut] at hnone
      have hinside := (Lexed.of_closed hnone).1
      have hstarts : startsMarkup whole = true := startsMarkup_of_closing hclose
      rw [inside?_of_startsMarkup hstarts] at hinside
      cases hinside
    | none =>
      rw [hcut] at hlater
      obtain ⟨hinside, hm, htail⟩ := Lexed.of_closed hlater
      have hinside' : inside? false inner = some false := by
        rcases hinner with rfl | rfl
        · exact hinside
        · rw [inside?_trim, hinside]
      refine ⟨htail, inner ++ close, by simp, fun after => ?_⟩
      have hmarkup := startsMarkup_append_right hm.starts after
      have hscan := scan_text_append o hinside' (.inr ⟨rfl, hmarkup⟩)
      rw [scan_of_sign hm, text?_of_ne_nil hne, List.singleton_append, source] at hscan
      rw [List.append_assoc, hscan, inline?_text_closed, if_pos rfl, hagain]
      exact ⟨rfl, rfl⟩

/-- What is after an element on one line. -/
theorem drop_again {name markup content : Text} {used : Nat}
    (h : inline? name markup later = some (content, used)) (level : Nat) :
    (again o tail (level + 1) later).drop used = again o tail level (later.drop used) := by
  rcases inline?_eq_some h with
    ⟨close, rest, rfl, rfl, rfl⟩ | ⟨whole, inner, close, rest, rfl, -, rfl, rfl⟩
  · rfl
  · rfl

/-- A raw content was laid out, so only what comes after it counts. -/
theorem lines_again_of_raw (ho : o.Plain) (htail : allBlank tail = true) (hs : s.Ready)
    (hbegun : s.begun = true) {e : RawElement} {content : Text} (he : e.Named)
    (hcontent : ¬ e.closing <:+: content)
    (hclose : ∀ token, later.head? = some token → e.closing <+: token.source)
    (hlater : Lexed o none later)
    (hagain : lines o s (scan o none (written o true (lines o s later) ++ tail)) =
      lines o s (again o tail s.level later)) :
    lines o s (scan o (some e)
        (written o true (lines o s (raw? content e.script ++ later)) ++ tail)) =
      lines o s (again o tail s.level (raw? content e.script ++ later)) := by
  obtain ⟨after, hscan, -, hafter⟩ :=
    scan_written_raw ho htail hs hbegun he hcontent hclose hlater
  rw [hscan, lines_raw? hbegun, ← hafter, hagain]
  by_cases hnil : content = []
  · subst hnil
    have hnone : rawRows o s.level e.script (rawBody []) = [] := rawRows_of_blank (by decide) _ _
    have hblank := allBlank_rawBody (allBlank_gap ho htail s.level later)
    rw [hnone]
    show rawRows _ _ _ (rawBody (gap o tail s.level later)) ++ _ = _
    rw [rawRows_of_blank hblank]
    rfl
  · rw [raw?_of_ne_nil hnil, List.singleton_append, again, lines_raw hbegun]

end

/-- What is written for some tokens is laid out like the tokens that are read from it. -/
theorem lines_scan_written (ho : o.Plain) {tail : Text} (htail : allBlank tail = true)
    (tokens : List Token) (h : Lexed o none tokens) {s : State} (hs : s.Ready) :
    lines o s (scan o none (written o s.begun (lines o s tokens) ++ tail)) =
      lines o s (again o tail s.level tokens) := by
  cases h with
  | @last t u after ht hu =>
    rcases hu with rfl | ⟨rfl, hu⟩
    · rw [text?_nil, List.append_nil, again_singleton_text?, lines_singleton_text,
        scan_written_text ho htail ht, lines_singleton_text, fst_textLines_append _ _ htail,
        textLines_written_again ho hs.blanks]
    · obtain ⟨before, u', hscan, hlines⟩ := scan_written_unended ho hs htail ht hu
      rw [hscan, hlines, again_text?, again_singleton_text?]
  | @unclosed t u ht hu =>
    have hmark : (Token.comment (u ++ tail)).isMark = true := rfl
    have hlines := lines_textBefore_mark (t := t) ho hs hmark []
    rw [scan_written_unclosed ho htail ht hu, again_text?, again_unclosed hu, lines_text? _ _ t]
    exact hlines
  | @sign t m later ht hm hlater =>
    rw [again_text?, ← (textLines_laidOut ho s t).level, again_of_sign hm]
    rcases alone_or_inline m later with halone | ⟨name, markup, content, used, rfl, hinline⟩
    · have hready := ready_after (levelAfter (textLines o s t).2 m)
      have hline := lines_of_alone (o := o) hm.isMark (textLines o s t).2 halone
      have hagain : lines o ⟨levelAfter (textLines o s t).2 m, 0, true⟩ (scan o (m.rawAfter o)
          (written o true (lines o ⟨levelAfter (textLines o s t).2 m, 0, true⟩ later) ++ tail)) =
          lines o ⟨levelAfter (textLines o s t).2 m, 0, true⟩
            (again o tail (levelAfter (textLines o s t).2 m) later) := by
        have hlater' := hlater
        cases hraw : m.rawAfter o with
        | none =>
          rw [hraw] at hlater'
          exact lines_scan_written ho htail later hlater' hready
        | some e =>
          rw [hraw] at hlater'
          cases hlater' with
          | raw he hcontent hclose hlater' =>
            exact lines_again_of_raw ho htail hready rfl he hcontent hclose hlater'
              (lines_scan_written ho htail _ hlater' hready)
      rw [← List.append_nil m.source] at hline
      refine lines_again_of_sign ho hs ht hm hline ?_
      rw [List.nil_append, lines_of_alone hm.isMark _ halone.again, lines_of_alone hm.isMark,
        hagain]
      intro name markup hopened
      exact inline?_scan_written ho htail hlater hready rfl (halone name markup hopened)
    · have hready := ready_after (textLines o s t).2.level
      have hline := lines_of_inline (o := o) (textLines o s t).2 hinline
      obtain ⟨hdropped, rest, rfl, hscan⟩ := inline?_again hlater hinline
      have hagain := lines_scan_written ho htail _ hdropped hready
      obtain ⟨hinline', hdrop⟩ := hscan (written o true
        (lines o ⟨(textLines o s t).2.level, 0, true⟩ (later.drop used)) ++ tail)
      refine lines_again_of_sign ho hs ht hm hline ?_
      rw [lines_of_inline _ hinline', hdrop, hagain, levelAfter,
        lines_of_inline _ ((inline?_again_tokens ..).trans hinline), drop_again hinline]
termination_by tokens.length

theorem again_of_ne_raw {tokens : List Token}
    (hraw : ∀ content script, Token.raw content script ∉ tokens) (level : Nat) :
    again o [] level tokens = tokens := by
  induction tokens generalizing level with
  | nil => rfl
  | cons token later ih =>
    have hlater := ih fun content script hmem => hraw content script (List.mem_cons_of_mem _ hmem)
    cases token with
    | raw content script => exact absurd List.mem_cons_self (hraw content script)
    | comment markup => rw [again, List.append_nil, ite_self, hlater]
    | opened _ _ | closed _ _ | selfClosing _ | text _ => exact congrArg _ (hlater _)

/-- Tokens without raw contents that were laid out are laid out as they are. -/
theorem lines_again (ho : o.Plain) (tokens : List Token) (h : Scanned o tokens) {s : State}
    (hs : s.Ready) :
    lines o s (scan o none (written o s.begun (lines o s tokens))) = lines o s tokens := by
  have hnil : allBlank [] = true := rfl
  have hagain := lines_scan_written ho hnil tokens h.lexed hs
  rwa [List.append_nil, again_of_ne_raw (h.lexed.ne_raw rfl h.notRaw)] at hagain

theorem rawAfter_eq_none_iff {token : Token} :
    token.rawAfter o = none ↔
      ∀ name markup, token = .opened name markup → name ∉ scriptTags ∧ name ∉ o.unformatted := by
  cases token with
  | opened name markup =>
    unfold rawAfter
    by_cases hscript : name ∈ scriptTags
    · simp [hscript]
    · by_cases hkept : name ∈ o.unformatted
      · simp [hscript, hkept]
      · simp [hscript, hkept]
  | _ => simp [rawAfter]

/-- Markup without raw content is laid out once and for all, however malformed it is. -/
theorem format_format (heol : o.eol = "\n" ∨ o.eol = "\r\n")
    (hunit : ∀ c ∈ o.indentUnit, c = ' ' ∨ c = '\t') (hend : o.endWithNewline = false)
    {source : Text} (hraw : ∀ name markup, .opened name markup ∈ Token.ofText o source →
      name ∉ scriptTags ∧ name ∉ o.unformatted) :
    format o (format o source) = format o source := by
  have hformat : ∀ t, format o t = written o false (lines o .start (scan o none t)) := by
    intro t
    rw [format, print, joinLines, hend]
    rfl
  have hscanned : Scanned o (scan o none source) := by
    apply scanned_scan
    intro token htoken
    rw [rawAfter_eq_none_iff]
    rintro name markup rfl
    exact hraw name markup htoken
  have hagain := lines_again ⟨heol, hunit⟩ _ hscanned ready_start
  rw [hformat source, hformat]
  exact congrArg (written o false) hagain

/-- Tags at several levels, text on several lines with blank lines, closing tags that fit to
nothing, a `text` element, an interpolation with a `<` in it, and a tag that does not end. -/
def unevenSample : Text :=
  "\n</a> <view>x\n\n\n\ny \x7b\x7b a <b \x7d\x7d <text> z </text><view> w </view><i>\n</i>" ++
    "<!-- k\n -->u</p></view> v <br\n  c='>"

theorem format_format_sample :
    (∀ name markup, .opened name markup ∈ Token.ofText .default unevenSample →
        name ∉ scriptTags ∧ name ∉ Options.default.unformatted) ∧
      format .default unevenSample ≠ unevenSample ∧
      format .default (format .default unevenSample) = format .default unevenSample := by
  have hplain : ∀ token ∈ Token.ofText .default unevenSample, token.rawAfter .default = none := by
    decide +kernel
  have hraw : ∀ name markup, .opened name markup ∈ Token.ofText .default unevenSample →
      name ∉ scriptTags ∧ name ∉ Options.default.unformatted :=
    fun name markup hmem => rawAfter_eq_none_iff.1 (hplain _ hmem) name markup rfl
  have hunit : ∀ c ∈ Options.default.indentUnit, c = ' ' ∨ c = '\t' :=
    fun c hc => .inl (List.eq_of_mem_replicate hc)
  exact ⟨hraw, by decide +kernel, format_format (.inl rfl) hunit rfl hraw⟩

end Layout

end Wxml
