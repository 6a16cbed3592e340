import Wxml.Proofs.LayoutStable

/-!
# Raw contents that were laid out once

The indentation before the closing tag of a raw element is read as a line of its content, so a raw
content in another element grows when it is laid out again.  `Steady` says of some tokens that
nothing of this kind happens.

* `rawRows_again_iff` is about the lines of one raw content,
* `written_again_iff` follows the tokens mark by mark,
* `format_format_iff` says that a text is laid out once and for all exactly if its tokens are
  steady.
-/

namespace Wxml

namespace Layout

open Text Token

variable {o : Options}

/-! ### Steady tokens -/

/-- Whether the lines of a raw content are its lines again: none of those at the ends is empty, and
there is no indentation before the next token. -/
def Settles (o : Options) (level : Nat) (rows : List Text) (later : List Token) : Prop :=
  rows = [] ∨ rows.head? ≠ some [] ∧ rows.getLast? ≠ some [] ∧
    ∀ token ∈ later.head?, o.indent (lineLevel ⟨level, 0, true⟩ token) = []

instance (o : Options) (level : Nat) (rows : List Text) (later : List Token) :
    Decidable (Settles o level rows later) := inferInstanceAs (Decidable (_ ∨ _))

/-- Whether some tokens at a level are laid out once and for all.  A line end at the end of the text
is added to a comment that does not end. -/
def Steady (o : Options) : (level : Nat) → List Token → Prop
  | _, [] => True
  | level, .raw content script :: later =>
    Settles o level (rawRows o level script (rawBody content)) later ∧ Steady o level later
  | level, .opened _ _ :: later => Steady o (level + 1) later
  | level, .closed _ _ :: later => Steady o (level - 1) later
  | level, .comment markup :: later =>
    (later = [] → o.endWithNewline = true → ("-->" : Text) <:+: markup) ∧ Steady o level later
  | level, .selfClosing _ :: later => Steady o level later
  | level, .text _ :: later => Steady o level later

instance decidableSteady (o : Options) :
    (level : Nat) → (tokens : List Token) → Decidable (Steady o level tokens)
  | _, [] => inferInstanceAs (Decidable True)
  | level, .raw _ _ :: later =>
    have := decidableSteady o level later
    inferInstanceAs (Decidable (_ ∧ _))
  | level, .opened _ _ :: later => decidableSteady o (level + 1) later
  | level, .closed _ _ :: later => decidableSteady o (level - 1) later
  | level, .comment _ :: later =>
    have := decidableSteady o level later
    inferInstanceAs (Decidable (_ ∧ _))
  | level, .selfClosing _ :: later => decidableSteady o level later
  | level, .text _ :: later => decidableSteady o level later

section

variable {level : Nat} {later : List Token}

theorem steady_text? (t : Text) :
    Steady o level (text? t ++ later) ↔ Steady o level later := by
  unfold text?
  split <;> rfl

theorem steady_of_sign {m : Token} (hm : Sign m) (s : State) :
    Steady o s.level (m :: later) ↔ Steady o (levelAfter s m) later := by
  cases m with
  | text _ => cases hm.isMark
  | raw _ _ => cases hm.isMark
  | opened _ _ | closed _ _ | selfClosing _ => rfl
  | comment markup => exact and_iff_right fun _ _ => hm.ended markup rfl

theorem steady_drop {name markup content : Text} {used : Nat}
    (h : inline? name markup later = some (content, used)) :
    Steady o (level + 1) later ↔ Steady o level (later.drop used) := by
  rcases inline?_eq_some h with
    ⟨close, rest, rfl, rfl, rfl⟩ | ⟨whole, inner, close, rest, rfl, -, rfl, rfl⟩
  · rfl
  · rfl

end

/-! ### One raw content -/

theorem isLine_indent (ho : o.Plain) (level : Nat) : IsLine (o.indent level) := by
  refine ⟨ho.not_mem_indent level, rdropWhile_eq_self_iff_getLast?.2 fun c hc => ?_⟩
  rcases ho.mem_indent (List.mem_of_getLast? hc) with rfl | rfl
  · rfl
  · rfl

section

variable {level : Nat} {script : Bool} {content tail : Text} {later : List Token}

/-- When the lines of a raw content come out the same again. -/
theorem rawRows_again_iff (ho : o.Plain) (heol : o.eol = "\n") (htail : tail = [] ∨ tail = o.eol) :
    rawRows o level script (rawBody (written o true (rawRows o level script (rawBody content)) ++
        gap o tail level later)) = rawRows o level script (rawBody content) ↔
      Settles o level (rawRows o level script (rawBody content)) later := by
  have hblank : allBlank tail = true := by
    rcases htail with rfl | rfl
    · rfl
    · exact ho.allBlank_eol
  by_cases hne : rawRows o level script (rawBody content) = []
  · rw [hne]
    have hrest := allBlank_rawBody (allBlank_gap ho hblank level later)
    exact iff_of_true (rawRows_of_blank hrest _ _) (.inl rfl)
  · have hline (w : Text) : written o true [w] = o.eol ++ w := by simp [written]
    rw [Settles, or_iff_right hne]
    cases later with
    | nil =>
      obtain ⟨more, hmore, hgap⟩ : ∃ more, (more = [] ∨ more = [[]]) ∧
          tail = written o true more := by
        rcases htail with rfl | rfl
        · exact ⟨[], .inl rfl, rfl⟩
        · exact ⟨[[]], .inr rfl, by rw [hline, List.append_nil]⟩
      rw [gap, hgap, ← written_true_append, rawRows_written ho heol hne hmore, stripped_eq_self_iff]
      simp
    | cons token later =>
      rw [gap, ← hline, ← written_true_append]
      by_cases hindent : o.indent (lineLevel ⟨level, 0, true⟩ token) = []
      · rw [hindent, rawRows_written ho heol hne (.inr rfl), stripped_eq_self_iff]
        simp [hindent]
      · refine iff_of_false (rawRows_written_ne ho heol hne hindent (ho.allBlank_indent _)
          (isLine_indent ho _)) fun h => hindent (h.2.2 token rfl)

end

/-! ### All tokens -/

theorem Closing.again {e : RawElement} {tokens : List Token} (h : Closing e tokens) (tail : Text)
    (level : Nat) :
    Closing e (again o tail level tokens) ∧
      gap o tail level (again o tail level tokens) = gap o tail level tokens := by
  cases h with
  | tag h => exact ⟨.tag h, rfl⟩
  | unended hu h => exact ⟨.unended hu h, rfl⟩

/-- The line end at the end of the text. -/
def finalBreak (o : Options) : Text := if o.endWithNewline then o.eol else []

theorem finalBreak_cases (o : Options) : finalBreak o = [] ∨ finalBreak o = o.eol := by
  unfold finalBreak
  split
  · exact .inr rfl
  · exact .inl rfl

theorem allBlank_finalBreak (ho : o.Plain) : allBlank (finalBreak o) = true := by
  rcases finalBreak_cases o with h | h
  · rw [h]
    rfl
  · rw [h, ho.allBlank_eol]

theorem finalBreak_eq_nil_iff (ho : o.Plain) : finalBreak o = [] ↔ o.endWithNewline = false := by
  cases h : o.endWithNewline with
  | true => simp [finalBreak, h, ho.eol_ne_nil]
  | false => simp [finalBreak, h]

section

variable {s : State} {later : List Token}

/-- A raw content and what comes after it are told apart by the closing tag. -/
theorem written_again_raw_iff (ho : o.Plain) (heol : o.eol = "\n") (hs : s.Ready)
    (hbegun : s.begun = true) {e : RawElement} {content : Text} (he : e.Named)
    (hcontent : ¬ e.closing <:+: content)
    (hclose : ∀ token, later.head? = some token → e.closing <+: token.source)
    (hlater : Lexed o none later)
    (hagain : written o true (lines o s (again o (finalBreak o) s.level later)) =
      written o true (lines o s later) ↔ Steady o s.level later) :
    written o true (lines o s (again o (finalBreak o) s.level (raw? content e.script ++ later))) =
        written o true (lines o s (raw? content e.script ++ later)) ↔
      Steady o s.level (raw? content e.script ++ later) := by
  by_cases hnil : content = []
  · subst hnil
    exact hagain
  · have hblank := allBlank_gap ho (allBlank_finalBreak ho) s.level later
    have hnone : ¬ e.closing <:+: written o true (rawRows o s.level e.script (rawBody content)) ++
        gap o (finalBreak o) s.level later := not_isInfix_rows ho he hcontent hblank
    rw [raw?_of_ne_nil hnil, List.singleton_append, Steady,
      ← rawRows_again_iff ho heol (finalBreak_cases o), ← hagain, Layout.again, lines_raw hbegun,
      lines_raw hbegun, written_true_append, written_true_append]
    constructor
    · intro h
      have hrow {content l : Text} (hl : l ∈ rawRows o s.level e.script (rawBody content)) :
          '\n' ∉ l := (isLine_of_mem_rawRows ho hl).noBreak
      rcases nil_or_closing hclose hlater with rfl | hclosing
      · simp only [Layout.again, lines_nil, List.append_cancel_right_eq] at h
        exact ⟨written_true_inj heol (fun _ => hrow) (fun _ => hrow) h, rfl⟩
      · obtain ⟨hclosing', hgap⟩ := hclosing.again (o := o) (finalBreak o) s.level
        obtain ⟨line, hline, hstart⟩ := written_closing ho hs he hclosing (finalBreak o)
        obtain ⟨line', hline', hstart'⟩ := written_closing ho hs he hclosing' (finalBreak o)
        rw [hgap] at hline'
        rw [hline, hline', ← List.append_assoc, ← List.append_assoc] at h
        have hcut := congrArg (breakOn e.closing) h
        rw [he.breakOn_append (not_isInfix_rows ho he hnone hblank) hstart',
          he.breakOn_append hnone hstart] at hcut
        obtain ⟨hbefore, hafter⟩ := Prod.mk.inj hcut
        have hrows := List.append_cancel_right hbefore
        exact ⟨written_true_inj heol (fun _ => hrow) (fun _ => hrow) hrows,
          by rw [hline, hline', hafter]⟩
    · rintro ⟨hrows, hlines⟩
      rw [hrows, hlines]

end

/-- What is written for some tokens is written again exactly if they are steady. -/
theorem written_again_iff (ho : o.Plain) (heol : o.eol = "\n") (s : State) (tokens : List Token)
    (h : Lexed o none tokens) :
    written o s.begun (lines o s (again o (finalBreak o) s.level tokens)) =
        written o s.begun (lines o s tokens) ↔ Steady o s.level tokens := by
  cases h with
  | @last t u after ht hu =>
    have hsteady : Steady o s.level (text? t ++ text? u) := by
      rw [steady_text?, ← List.append_nil (text? u), steady_text?]
      trivial
    rw [again_text?, again_singleton_text?]
    exact iff_of_true rfl hsteady
  | @unclosed t u ht hu =>
    rw [again_text?, again_unclosed hu, lines_text?, lines_text?, lines_comment, lines_comment,
      lines_nil, written_textLines_append, written_textLines_append, steady_text?]
    simp [Steady, hu.noEnd, finalBreak_eq_nil_iff ho, -String.reduceToList]
  | @sign t m later ht hm hlater =>
    have hlevel := (textLines_laidOut ho s t).level
    rw [again_text?, steady_text?, ← hlevel, again_of_sign hm, steady_of_sign hm, lines_text?,
      lines_text?]
    rcases alone_or_inline m later with halone | ⟨name, markup, content, used, rfl, hinline⟩
    · have hready := ready_after (levelAfter (textLines o s t).2 m)
      rw [lines_of_alone hm.isMark _ halone, lines_of_alone hm.isMark _ halone.again,
        written_textLines_append, written_textLines_append, List.append_cancel_left_eq,
        List.append_cancel_left_eq]
      have hlater' := hlater
      cases hraw : m.rawAfter o with
      | none =>
        rw [hraw] at hlater'
        exact written_again_iff ho heol ⟨_, 0, true⟩ later hlater'
      | some e =>
        rw [hraw] at hlater'
        cases hlater' with
        | raw he hcontent hclose hlater' =>
          exact written_again_raw_iff ho heol hready rfl he hcontent hclose hlater'
            (written_again_iff ho heol ⟨_, 0, true⟩ _ hlater')
    · obtain ⟨hdropped, -⟩ := inline?_again hlater hinline
      rw [levelAfter, steady_drop hinline, lines_of_inline _ hinline,
        lines_of_inline _ ((inline?_again_tokens ..).trans hinline), drop_again hinline,
        written_textLines_append, written_textLines_append, List.append_cancel_left_eq,
        List.append_cancel_left_eq]
      exact written_again_iff ho heol ⟨_, 0, true⟩ _ hdropped
termination_by tokens.length

/-! ### The whole text -/

theorem joinLines_eq (o : Options) (ls : List Text) :
    joinLines o ls = join o.eol ls ++ if join o.eol ls = [] then [] else finalBreak o := by
  unfold joinLines finalBreak
  by_cases hout : join o.eol ls = []
  · simp [hout]
  · cases hend : o.endWithNewline with
    | true => simp [hout]
    | false => simp

theorem joinLines_eq_iff (ls ls' : List Text) :
    joinLines o ls = joinLines o ls' ↔ join o.eol ls = join o.eol ls' := by
  constructor
  · intro h
    rw [joinLines_eq, joinLines_eq] at h
    by_cases hout : join o.eol ls = []
    · by_cases hout' : join o.eol ls' = []
      · rw [hout, hout']
      · rw [if_pos hout, if_neg hout', hout, List.append_nil] at h
        exact absurd (List.append_eq_nil_iff.1 h.symm).1 hout'
    · by_cases hout' : join o.eol ls' = []
      · rw [if_neg hout, if_pos hout', hout', List.append_nil] at h
        exact absurd (List.append_eq_nil_iff.1 h).1 hout
      · rw [if_neg hout, if_neg hout'] at h
        exact List.append_cancel_right h
  · intro h
    rw [joinLines_eq, joinLines_eq, h]

/-- Whether there is a line end after nothing does not matter. -/
theorem lines_scan_joinLines (ho : o.Plain) (ls : List Text) :
    lines o .start (scan o none (joinLines o ls)) =
      lines o .start (scan o none (written o false ls ++ finalBreak o)) := by
  have hwritten : written o false ls = join o.eol ls := rfl
  rw [joinLines_eq, hwritten]
  by_cases hout : join o.eol ls = []
  · rw [if_pos hout, hout, List.nil_append, List.nil_append,
      lines_scan_blank o _ (allBlank_finalBreak ho), scan_nil, lines_nil]
  · rw [if_neg hout]

/-- A text is laid out once and for all exactly if its tokens are steady. -/
theorem format_format_iff (heol : o.eol = "\n") (hunit : ∀ c ∈ o.indentUnit, c = ' ' ∨ c = '\t')
    (source : Text) :
    format o (format o source) = format o source ↔ Steady o 0 (Token.ofText o source) := by
  have ho : o.Plain := ⟨.inl heol, hunit⟩
  have hlexed : Lexed o none (Token.ofText o source) := lexed_scan o source
  have hagain := lines_scan_written ho (allBlank_finalBreak ho) _ hlexed ready_start
  have hformat (t : Text) : format o t = joinLines o (lines o .start (scan o none t)) := rfl
  rw [hformat source, hformat, joinLines_eq_iff, lines_scan_joinLines ho]
  refine Iff.trans ?_ (written_again_iff ho heol .start _ hlexed)
  exact Eq.congr_left (congrArg (join o.eol) hagain)

/-- A script that is in no other element, with a blank line and lines of several depths, and other
elements after it. -/
def steadySample : Text := "<wxs>\n    a\n\n      b\n</wxs><view><i> c</i></view>"

theorem format_format_iff_sample :
    Steady .default 0 (Token.ofText .default steadySample) ∧
      format .default steadySample ≠ steadySample ∧
      format .default (format .default steadySample) = format .default steadySample := by
  have hunit : ∀ c ∈ Options.default.indentUnit, c = ' ' ∨ c = '\t' :=
    fun c hc => .inl (List.eq_of_mem_replicate hc)
  have hsteady : Steady .default 0 (Token.ofText .default steadySample) := by decide +kernel
  exact ⟨hsteady, by decide +kernel, (format_format_iff rfl hunit _).2 hsteady⟩

/-- A script in another element gets one more line. -/
theorem exists_nested_raw_grows :
    ∃ source, format .default source = ("<view>\n  <wxs>\n a\n  </wxs>\n</view>" : Text) ∧
      format .default (format .default source) =
        ("<view>\n  <wxs>\n a\n  \n  </wxs>\n</view>" : Text) := by
  refine ⟨"<view><wxs>\n a\n</wxs></view>", ?_, ?_⟩
  · decide +kernel
  · decide +kernel

end Layout

end Wxml
