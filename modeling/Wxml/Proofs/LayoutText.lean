import Wxml.Proofs.TextLines

/-!
# Laying out a text again

`textParts_laidOut` says what is known of the lines of a text and of the state after it.
`textParts_append_again` lays out these lines again: they come out as they are, and what follows
them is laid out as it is after the text.

`written` is how lines become a text.  `textLines_again` puts both together for a text that is
written up to the place of the next line.
-/

namespace Wxml

namespace Layout

open Text

/-- The blank lines that are due before the next line. -/
def State.due (s : State) : List Text := if s.begun then List.replicate s.blanks [] else []

/-- The state without the blank lines that are due. -/
def State.clear (s : State) : State := { s with blanks := 0 }

/-- The state without blank lines that are never written, before the first line. -/
def State.settled (s : State) : State := if s.begun then s else s.clear

/-- The blank lines that are due are as many as may be kept. -/
def State.Due (o : Options) (s : State) : Prop :=
  s.blanks = 0 ∨ o.preserveNewlines = true ∧ s.blanks < o.maxPreserveNewlines

theorem line_eq (o : Options) (s : State) (content : Text) :
    line o s content =
      (s.due ++ [o.indent s.level ++ content], { s with blanks := 0, begun := true }) := rfl

theorem line_settled (o : Options) (s : State) (content : Text) :
    line o s.settled content = line o s content := by
  unfold State.settled
  split
  · rfl
  · rename_i hbegun
    simp [line, State.clear, hbegun]

theorem due_noteBreaks {o : Options} {s : State} (h : s.Due o) (breaks : Nat) :
    (noteBreaks o s breaks).Due o := by
  unfold noteBreaks
  split
  · rename_i hkept
    simp only [Bool.and_eq_true, decide_eq_true_eq] at hkept
    have hbound : s.blanks = 0 ∨ s.blanks < o.maxPreserveNewlines := h.imp_right And.right
    by_cases hmax : o.maxPreserveNewlines = 0
    · left
      show max s.blanks (min breaks o.maxPreserveNewlines - 1) = 0
      omega
    · refine .inr ⟨hkept.1, ?_⟩
      show max s.blanks (min breaks o.maxPreserveNewlines - 1) < o.maxPreserveNewlines
      omega
  · exact h

/-- Blank lines that are due are found again in as many line breaks. -/
theorem noteBreaks_due {o : Options} {s : State} (h : s.Due o) :
    noteBreaks o s.clear (s.blanks + 1) = s := by
  unfold State.clear
  rcases h with hnone | ⟨hkept, hmax⟩
  · rw [hnone, noteBreaks, if_neg (by simp), ← hnone]
  · by_cases hnone : s.blanks = 0
    · rw [hnone, noteBreaks, if_neg (by simp), ← hnone]
    · have hsame : max 0 (min (s.blanks + 1) o.maxPreserveNewlines - 1) = s.blanks := by omega
      rw [noteBreaks, if_pos (by simp [hkept]; omega)]
      simp only [hsame]

theorem textParts_cons_blank {o : Options} {s : State} {breaks : Nat} {part : Text}
    {parts : List Text} (h : trim part = []) :
    textParts o s breaks (part :: parts) = textParts o s (breaks + 1) parts := by
  rw [textParts]
  simp only [h]
  rfl

theorem textParts_cons_line {o : Options} {s : State} {breaks : Nat} {part : Text}
    {parts : List Text} (h : trim part ≠ []) :
    textParts o s breaks (part :: parts) =
      ((line o (noteBreaks o s breaks) (trim part)).1 ++
          (textParts o (line o (noteBreaks o s breaks) (trim part)).2 1 parts).1,
        (textParts o (line o (noteBreaks o s breaks) (trim part)).2 1 parts).2) := by
  rw [textParts]
  simp only [List.isEmpty_iff, if_neg h]

theorem textParts_replicate (o : Options) (s : State) (breaks n : Nat) (ls : List Text) :
    textParts o s breaks (List.replicate n [] ++ ls) = textParts o s (breaks + n) ls := by
  induction n generalizing breaks with
  | zero => rfl
  | succ n ih =>
    rw [List.replicate_succ, List.cons_append, textParts]
    show textParts o s (breaks + 1) (List.replicate n [] ++ ls) = _
    rw [ih]
    congr 1
    omega

theorem textParts_map_trim (o : Options) (s : State) (breaks : Nat) (parts : List Text) :
    textParts o s breaks (parts.map trim) = textParts o s breaks parts := by
  induction parts generalizing s breaks with
  | nil => rfl
  | cons part parts ih => simp only [List.map_cons, textParts, trim_trim, ih]

/-- Options with line ends and indentation as they are in use. -/
structure Options.Plain (o : Options) : Prop where
  eol : o.eol = "\n" ∨ o.eol = "\r\n"
  unit : ∀ c ∈ o.indentUnit, c = ' ' ∨ c = '\t'

namespace Options.Plain

variable {o : Options}

theorem exists_eol (h : o.Plain) :
    ∃ w, o.eol = w ++ ['\n'] ∧ allBlank w = true ∧ '\n' ∉ w := by
  rcases h.eol with heol | heol
  · exact ⟨[], heol, rfl, by simp⟩
  · exact ⟨['\r'], heol, by decide, by decide⟩

theorem eol_ne_nil (h : o.Plain) : o.eol ≠ [] := by
  obtain ⟨w, heol, -, -⟩ := h.exists_eol
  simp [heol]

theorem allBlank_eol (h : o.Plain) : allBlank o.eol = true := by
  obtain ⟨w, heol, hblank, -⟩ := h.exists_eol
  rw [heol, allBlank_append, hblank]
  rfl

theorem allBlank_unit (h : o.Plain) : allBlank o.indentUnit = true := by
  rw [allBlank, List.all_eq_true]
  intro c hc
  rcases h.unit c hc with rfl | rfl
  · decide
  · decide

theorem mem_indent (h : o.Plain) {level : Nat} {c : Char} (hc : c ∈ o.indent level) :
    c = ' ' ∨ c = '\t' := by
  obtain ⟨unit, hunit, hmem⟩ := List.mem_flatten.1 hc
  rw [List.eq_of_mem_replicate hunit] at hmem
  exact h.unit c hmem

theorem allBlank_indent (h : o.Plain) (level : Nat) : allBlank (o.indent level) = true := by
  rw [allBlank, List.all_eq_true]
  intro c hc
  rcases h.mem_indent hc with rfl | rfl
  · decide
  · decide

theorem trim_indent_append (h : o.Plain) (level : Nat) (t : Text) :
    trim (o.indent level ++ trim t) = trim t := by
  rw [trim_append_left _ (h.allBlank_indent level), trim_trim]

theorem not_mem_indent (h : o.Plain) (level : Nat) : '\n' ∉ o.indent level := by
  intro hc
  rcases h.mem_indent hc with hspace | htab
  · cases hspace
  · cases htab

end Options.Plain

/-- What is known of the lines of a text and of the state after it. -/
structure LaidOut (o : Options) (s : State) (parts ls : List Text) (s' : State) : Prop where
  level : s'.level = s.level
  begun : s'.begun = true ↔ s.begun = true ∨ ls ≠ []
  due : s.Due o → s'.Due o
  pieces : trimmedLines ls = trimmedLines parts
  lines : (∀ part ∈ parts, '\n' ∉ part) → ∀ l ∈ ls, '\n' ∉ l

theorem noteBreaks_level (o : Options) (s : State) (breaks : Nat) :
    (noteBreaks o s breaks).level = s.level := by
  unfold noteBreaks
  split <;> rfl

theorem noteBreaks_zero (o : Options) (s : State) : noteBreaks o s 0 = s := by
  simp [noteBreaks]

theorem noteBreaks_begun (o : Options) (s : State) (breaks : Nat) :
    (noteBreaks o s breaks).begun = s.begun := by
  unfold noteBreaks
  split <;> rfl

theorem trimmedLines_due (s : State) : trimmedLines s.due = [] := by
  unfold State.due
  split
  · rw [trimmedLines, List.map_replicate]
    simp
  · rfl

theorem not_mem_due (s : State) : ∀ l ∈ s.due, '\n' ∉ l := by
  intro l hl
  unfold State.due at hl
  split at hl
  · rw [List.eq_of_mem_replicate hl]
    simp
  · cases hl

theorem not_mem_due_append (s : State) {w : Text} (hw : '\n' ∉ w) : ∀ l ∈ s.due ++ [w], '\n' ∉ l :=
  List.forall_mem_append.2 ⟨not_mem_due s, List.forall_mem_singleton.2 hw⟩

theorem length_due {s : State} (h : s.begun = true) : s.due.length = s.blanks := by
  rw [State.due, if_pos h, List.length_replicate]

theorem textParts_laidOut {o : Options} (ho : o.Plain) (s : State) (breaks : Nat)
    (parts : List Text) :
    LaidOut o s parts (textParts o s breaks parts).1 (textParts o s breaks parts).2 := by
  induction parts generalizing s breaks with
  | nil =>
    refine ⟨noteBreaks_level .., ?_, fun h => due_noteBreaks h _, rfl, by simp [textParts]⟩
    simp [textParts, noteBreaks_begun]
  | cons part parts ih =>
    by_cases hblank : trim part = []
    · have hlaid := ih s (breaks + 1)
      rw [textParts_cons_blank hblank]
      refine ⟨hlaid.level, hlaid.begun, hlaid.due, ?_,
        fun h => hlaid.lines (List.forall_mem_cons.1 h).2⟩
      rw [hlaid.pieces, trimmedLines_cons, if_pos (trim_eq_nil_iff.1 hblank), List.nil_append]
    · have hlaid := ih (line o (noteBreaks o s breaks) (trim part)).2 1
      have hcontent := ho.trim_indent_append (noteBreaks o s breaks).level part
      rw [textParts_cons_line hblank]
      refine ⟨?_, ?_, fun _ => hlaid.due (.inl rfl), ?_, ?_⟩
      · rw [hlaid.level]
        exact noteBreaks_level ..
      · rw [hlaid.begun]
        simp [line_eq]
      · have hpart : ¬allBlank part := fun h => hblank (trim_eq_nil_iff.2 h)
        have hwritten : ¬allBlank (o.indent (noteBreaks o s breaks).level ++ trim part) := by
          rw [← trim_eq_nil_iff, hcontent]
          exact hblank
        rw [trimmedLines_append, hlaid.pieces, line_eq, trimmedLines_append, trimmedLines_due,
          trimmedLines_cons, if_neg hwritten, hcontent, trimmedLines_cons, if_neg hpart]
        rfl
      · intro hbreak
        obtain ⟨hhere, hparts⟩ := List.forall_mem_cons.1 hbreak
        have hline : '\n' ∉ o.indent (noteBreaks o s breaks).level ++ trim part := by
          rw [List.mem_append, not_or]
          exact ⟨ho.not_mem_indent _, fun hmem => hhere (mem_of_mem_trim hmem)⟩
        rw [List.forall_mem_append, line_eq, List.forall_mem_append, List.forall_mem_singleton]
        exact ⟨⟨not_mem_due _, hline⟩, hlaid.lines hparts⟩

theorem due_eq_replicate (s : State) : s.due = List.replicate s.due.length [] := by
  unfold State.due
  split <;> simp

theorem clear_noteBreaks (o : Options) {s : State} (hs : s.blanks = 0) (breaks : Nat) :
    (noteBreaks o s breaks).clear = s := by
  unfold noteBreaks State.clear
  split
  · rw [← hs]
  · rw [← hs]

/-- A line comes again after the blank lines that were due before it, and before the first line it
comes after any. -/
theorem line_noteBreaks_again (o : Options) {s : State} (hs : s.blanks = 0) (breaks : Nat) {k : Nat}
    (hk : k = 1 ∨ s.begun = false) (content : Text) :
    line o (noteBreaks o s (k + (noteBreaks o s breaks).due.length)) content =
      line o (noteBreaks o s breaks) content := by
  by_cases hfirst : s.begun = true
  · have hone : k = 1 := hk.resolve_right (by simp [hfirst])
    have hdue := length_due ((noteBreaks_begun o s breaks).trans hfirst)
    have hagain := noteBreaks_due (due_noteBreaks (o := o) (.inl hs) breaks)
    rw [clear_noteBreaks o hs] at hagain
    rw [hone, hdue, Nat.add_comm, hagain]
  · have hsettled : ∀ n, line o (noteBreaks o s n) content = line o s content := by
      intro n
      rw [← line_settled, State.settled, noteBreaks_begun, if_neg hfirst, clear_noteBreaks o hs]
    rw [hsettled, hsettled]

/-- The lines of a text are laid out as they are.  What follows them is laid out as after the text,
without the blank lines that were due then. -/
theorem textParts_append_again {o : Options} (ho : o.Plain) (parts : List Text) {s : State}
    (hs : s.blanks = 0) (breaks : Nat) {k : Nat}
    (hk : k = 1 ∨ s.begun = false ∧ (textParts o s breaks parts).1 ≠ []) (more : List Text) :
    textParts o s k ((textParts o s breaks parts).1 ++ more) =
      ((textParts o s breaks parts).1 ++
          (textParts o (textParts o s breaks parts).2.clear 1 more).1,
        (textParts o (textParts o s breaks parts).2.clear 1 more).2) := by
  induction parts generalizing s breaks k with
  | nil =>
    have hone : k = 1 := hk.resolve_right (by simp [textParts])
    rw [textParts, hone, clear_noteBreaks o hs]
    rfl
  | cons part parts ih =>
    by_cases hblank : trim part = []
    · rw [textParts_cons_blank hblank] at hk ⊢
      exact ih hs _ hk
    · have hagain := line_noteBreaks_again o hs breaks (hk.imp_right And.left) (trim part)
      have hcontent := ho.trim_indent_append (noteBreaks o s breaks).level part
      have hstate : (line o (noteBreaks o s breaks) (trim part)).2.blanks = 0 := rfl
      rw [textParts_cons_line hblank]
      simp only
      nth_rewrite 1 [line_eq]
      rw [due_eq_replicate, List.append_assoc, List.append_assoc, textParts_replicate,
        List.singleton_append, textParts_cons_line (by rw [hcontent]; exact hblank), hcontent,
        hagain, ih hstate 1 (.inl rfl), List.append_assoc]

/-- What some lines are written as, after other lines or not. -/
def written (o : Options) (begun : Bool) (ls : List Text) : Text :=
  if begun then (ls.map (o.eol ++ ·)).flatten else join o.eol ls

theorem join_cons_eq (sep l : Text) (ls : List Text) :
    join sep (l :: ls) = l ++ (ls.map (sep ++ ·)).flatten := by
  induction ls generalizing l with
  | nil => simp [join]
  | cons m ls ih => rw [join_cons (by simp), ih, List.map_cons, List.flatten_cons]; simp

theorem head?_flatten_map {sep : Text} (hne : sep ≠ []) (hsep : allBlank sep = true)
    (ls : List Text) : ∀ d, ((ls.map (sep ++ ·)).flatten).head? = some d → isBlank d = true := by
  intro d hd
  cases ls with
  | nil => cases hd
  | cons l ls =>
    obtain ⟨c, sep, rfl⟩ := List.exists_cons_of_ne_nil hne
    cases hd
    exact List.all_eq_true.1 hsep d List.mem_cons_self

/-- Lines that are written, cut inside one of them. -/
theorem written_append_cons (o : Options) (begun : Bool) (ls : List Text) (l rest : Text)
    (more : List Text) :
    written o begun (ls ++ (l ++ rest) :: more) =
      written o begun (ls ++ [l]) ++ (rest ++ written o true more) := by
  cases begun with
  | true => simp [written]
  | false =>
    cases ls with
    | nil => simp [written, join_cons_eq]
    | cons m ls => simp [written, join_cons_eq]

theorem map_trim_splitOn_append {o : Options} (ho : o.Plain) (ls : List Text) {l : Text}
    (hl : '\n' ∉ l) (hls : ∀ m ∈ ls, '\n' ∉ m) :
    (splitOn '\n' (l ++ (ls.map (o.eol ++ ·)).flatten)).map trim = (l :: ls).map trim := by
  obtain ⟨w, heol, hblank, hw⟩ := ho.exists_eol
  induction ls generalizing l with
  | nil => simp [splitOn_of_not_mem hl]
  | cons m ls ih =>
    obtain ⟨hm, hls⟩ := List.forall_mem_cons.1 hls
    have hlw : '\n' ∉ l ++ w := by simp [hl, hw]
    have hcut : l ++ ((m :: ls).map (o.eol ++ ·)).flatten =
        (l ++ w) ++ '\n' :: (m ++ (ls.map (o.eol ++ ·)).flatten) := by simp [heol]
    rw [hcut, splitOn_append_cons, splitOn_of_not_mem hlw, List.map_append, ih hm hls]
    simp [trim_append_right l hblank]

section

variable {o : Options} {ls : List Text}

theorem map_trim_splitOn_written_true (ho : o.Plain) (hls : ∀ l ∈ ls, '\n' ∉ l) :
    (splitOn '\n' (written o true ls)).map trim = [] :: ls.map trim := by
  have := map_trim_splitOn_append ho ls (l := []) (by simp) hls
  simpa [written] using this

theorem map_trim_splitOn_written_false (ho : o.Plain) (hne : ls ≠ [])
    (hls : ∀ l ∈ ls, '\n' ∉ l) :
    (splitOn '\n' (written o false ls)).map trim = ls.map trim := by
  cases ls with
  | nil => exact absurd rfl hne
  | cons l ls =>
    obtain ⟨hl, hls⟩ := List.forall_mem_cons.1 hls
    rw [written, if_neg (by simp), join_cons_eq, map_trim_splitOn_append ho ls hl hls]

theorem trimmedLines_map_trim (ls : List Text) : trimmedLines (ls.map trim) = trimmedLines ls := by
  have hcomp : trim ∘ trim = trim := funext trim_trim
  rw [trimmedLines, List.map_map, hcomp, trimmedLines]

/-- Lines that were written have the same pieces. -/
theorem pieces_written (ho : o.Plain) (begun : Bool) (hls : ∀ l ∈ ls, '\n' ∉ l) :
    pieces (written o begun ls) = trimmedLines ls := by
  rw [pieces, ← trimmedLines_map_trim]
  cases begun with
  | true =>
    rw [map_trim_splitOn_written_true ho hls, trimmedLines_cons, trimmedLines_map_trim]
    rfl
  | false =>
    by_cases hne : ls = []
    · subst hne
      rfl
    · rw [map_trim_splitOn_written_false ho hne hls, trimmedLines_map_trim]

theorem textLines_written_true (ho : o.Plain) {s : State} (hls : ∀ l ∈ ls, '\n' ∉ l) :
    textLines o s (written o true ls) = textParts o s 1 ls := by
  rw [textLines, ← textParts_map_trim, map_trim_splitOn_written_true ho hls,
    textParts_cons_blank rfl, textParts_map_trim]

theorem textLines_written_false (ho : o.Plain) {s : State} (hne : ls ≠ [])
    (hls : ∀ l ∈ ls, '\n' ∉ l) :
    textLines o s (written o false ls) = textParts o s 0 ls := by
  rw [textLines, ← textParts_map_trim, map_trim_splitOn_written_false ho hne hls,
    textParts_map_trim]

end

section

variable {o : Options} {s : State}

theorem textLines_nil (o : Options) (s : State) : textLines o s [] = ([], s) := by
  simp [textLines, splitOn, textParts, noteBreaks]

theorem fst_textParts_append {ls : List Text} (hls : ∀ l ∈ ls, allBlank l = true) (s : State)
    (breaks : Nat) (parts : List Text) :
    (textParts o s breaks (parts ++ ls)).1 = (textParts o s breaks parts).1 := by
  induction parts generalizing s breaks with
  | nil =>
    induction ls generalizing breaks with
    | nil => rfl
    | cons l ls ih =>
      obtain ⟨hl, hls⟩ := List.forall_mem_cons.1 hls
      rw [List.nil_append, textParts_cons_blank (trim_eq_nil_iff.2 hl)]
      exact ih hls _
  | cons part parts ih =>
    by_cases hpart : trim part = []
    · rw [List.cons_append, textParts_cons_blank hpart, textParts_cons_blank hpart, ih]
    · rw [List.cons_append, textParts_cons_line hpart, textParts_cons_line hpart, ih]

/-- Blanks at the end of a text make no line. -/
theorem fst_textLines_append (s : State) (t : Text) {w : Text} (hw : allBlank w = true) :
    (textLines o s (t ++ w)).1 = (textLines o s t).1 := by
  have hline {a : Text} (ha : allBlank a = true) (hbreak : '\n' ∉ a) (ls : List Text) :
      textParts o s 0 (splitOn '\n' (t ++ a) ++ ls) = textParts o s 0 (splitOn '\n' t ++ ls) := by
    obtain ⟨parts, last, ht, hta⟩ := exists_splitOn_append t hbreak
    rw [← textParts_map_trim, hta, ← textParts_map_trim o s 0 (splitOn '\n' t ++ ls), ht]
    simp [trim_append_right last ha]
  by_cases hbreak : '\n' ∈ w
  · obtain ⟨a, b, rfl, ha⟩ := List.eq_append_cons_of_mem hbreak
    rw [allBlank_append, Bool.and_eq_true] at hw
    have hparts : ∀ l ∈ splitOn '\n' b, allBlank l = true := by
      intro l hl
      refine List.all_eq_true.2 fun c hc => List.all_eq_true.1 hw.2 c ?_
      exact List.mem_cons_of_mem _ ((isInfix_of_mem_splitOn hl).subset hc)
    rw [textLines, ← List.append_assoc, splitOn_append_cons, hline hw.1 ha,
      fst_textParts_append hparts, textLines]
  · have h := hline hw hbreak []
    rw [List.append_nil, List.append_nil] at h
    rw [textLines, h, textLines]

/-- A single line break makes no line and no blank line. -/
theorem textLines_break (ho : o.Plain) (s : State) {w : Text} (hw : allBlank w = true)
    (hbreak : '\n' ∉ w) : textLines o s (o.eol ++ w) = ([], s) := by
  obtain ⟨v, heol, hv, hv'⟩ := ho.exists_eol
  rw [textLines, heol, List.append_assoc, List.singleton_append, splitOn_append_cons,
    splitOn_of_not_mem hv', splitOn_of_not_mem hbreak, List.singleton_append,
    textParts_cons_blank (trim_eq_nil_iff.2 hv), textParts_cons_blank (trim_eq_nil_iff.2 hw)]
  simp [textParts, noteBreaks]

theorem textLines_laidOut (ho : o.Plain) (s : State) (t : Text) :
    LaidOut o s (splitOn '\n' t) (textLines o s t).1 (textLines o s t).2 :=
  textParts_laidOut ho s 0 _

theorem not_mem_textLines (ho : o.Plain) (s : State) (t : Text) :
    ∀ l ∈ (textLines o s t).1, '\n' ∉ l :=
  (textLines_laidOut ho s t).lines fun _ => not_mem_of_mem_splitOn

/-- The lines of a text are laid out as they are, and so is what is written after them. -/
theorem textLines_written_append (ho : o.Plain) (hs : s.blanks = 0) (t : Text) {more : List Text}
    (hmore : ∀ l ∈ more, '\n' ∉ l) (hne : s.begun = true ∨ (textLines o s t).1 ≠ []) :
    textLines o s (written o s.begun ((textLines o s t).1 ++ more)) =
      ((textLines o s t).1 ++ (textParts o (textLines o s t).2.clear 1 more).1,
        (textParts o (textLines o s t).2.clear 1 more).2) := by
  have hlines := List.forall_mem_append.2 ⟨not_mem_textLines ho s t, hmore⟩
  by_cases hbegun : s.begun = true
  · rw [hbegun, textLines_written_true ho hlines]
    exact textParts_append_again ho _ hs 0 (.inl rfl) more
  · have hsome := hne.resolve_left hbegun
    rw [Bool.not_eq_true] at hbegun
    rw [hbegun, textLines_written_false ho (by simp [hsome]) hlines]
    exact textParts_append_again ho _ hs 0 (.inr ⟨hbegun, hsome⟩) more

/-- A text that was laid out, up to the place of the next line, leads to the same lines and to the
same state. -/
theorem textLines_again (ho : o.Plain) (hs : s.blanks = 0) (t : Text) {w : Text}
    (hw : allBlank w = true) (hbreak : '\n' ∉ w)
    (hfirst : (textLines o s t).2.begun = false → w = []) :
    textLines o s (written o s.begun ((textLines o s t).1 ++ ((textLines o s t).2.due ++ [w]))) =
      ((textLines o s t).1, (textLines o s t).2.settled) := by
  have hlaid := textLines_laidOut ho s t
  by_cases hbegun : (textLines o s t).2.begun = true
  · rw [textLines_written_append ho hs t (not_mem_due_append _ hbreak) (hlaid.begun.1 hbegun),
      due_eq_replicate, textParts_replicate, textParts_cons_blank (trim_eq_nil_iff.2 hw),
      State.settled, if_pos hbegun, textParts, length_due hbegun, Nat.add_sub_cancel,
      Nat.add_comm, noteBreaks_due (hlaid.due (.inl hs)), List.append_nil]
  · obtain ⟨hfirst', hnone⟩ : s.begun = false ∧ (textLines o s t).1 = [] := by
      rw [hlaid.begun] at hbegun
      simpa using hbegun
    rw [Bool.not_eq_true] at hbegun
    have hstate : (textLines o s t).2.settled = s := by
      rw [State.settled, hbegun, if_neg (by simp), State.clear, hlaid.level, hbegun, ← hfirst',
        ← hs]
    rw [hstate, hnone, hfirst hbegun, State.due, hbegun, hfirst']
    exact textLines_nil o s

theorem pieces_written_again (ho : o.Plain) (s : State) (begun : Bool) (t : Text) {w : Text}
    (hw : allBlank w = true) (hbreak : '\n' ∉ w) :
    pieces (written o begun ((textLines o s t).1 ++ ((textLines o s t).2.due ++ [w]))) =
      pieces t := by
  have hlines := List.forall_mem_append.2
    ⟨not_mem_textLines ho s t, not_mem_due_append (textLines o s t).2 hbreak⟩
  rw [pieces_written ho begun hlines, trimmedLines_append, trimmedLines_append, trimmedLines_due,
    trimmedLines_cons, if_pos hw, (textLines_laidOut ho s t).pieces]
  exact List.append_nil _

end

end Layout

end Wxml
