import Wxml.Proofs.RawStable

/-!
# Raw contents that are kept

Where scripts are kept, the text of a raw content comes out as it is written, less the line breaks
around it.

* `OnOwnLines` says of a text that some pieces stand in it one after another, each alone on its
  lines, and `Stacked` says the same of a list of lines,
* `stacked_lines` follows the tokens, and the lines are then joined to the whole text.
-/

namespace Wxml

namespace Text

/-! ### Pieces on lines of their own -/

/-- Whether a line starts after a text. -/
def EndsLine (t : Text) : Prop := t = [] ∨ t.getLast? = some '\n'

/-- The pieces stand in a text in this order, each alone on its lines: before it a line starts, and
behind it a line ends. -/
inductive OnOwnLines : (pieces : List Text) → (t : Text) → Prop
  | none (t : Text) : OnOwnLines [] t
  | last {above : Text} (piece : Text) (h : EndsLine above) : OnOwnLines [piece] (above ++ piece)
  | next {above rest : Text} {pieces : List Text} (piece : Text) (h : EndsLine above)
      (hrest : OnOwnLines pieces rest) :
      OnOwnLines (piece :: pieces) (above ++ piece ++ '\n' :: rest)

/-- The pieces stand among some lines in this order, each with all of its lines. -/
inductive Stacked : (pieces ls : List Text) → Prop
  | none (ls : List Text) : Stacked [] ls
  | next (above : List Text) (piece : Text) {pieces rest : List Text} (h : Stacked pieces rest) :
      Stacked (piece :: pieces) (above ++ splitOn '\n' piece ++ rest)

theorem endsLine_append_break (t : Text) : EndsLine (t ++ ['\n']) := .inr (by simp)

theorem OnOwnLines.append_break {pieces : List Text} {t : Text} (h : OnOwnLines pieces t) :
    OnOwnLines pieces (t ++ ['\n']) := by
  induction h with
  | none t => exact .none _
  | last piece habove => exact .next piece habove (.none [])
  | next piece habove _ ih =>
    rw [List.append_assoc, List.cons_append]
    exact .next piece habove ih

theorem Stacked.append_left {pieces ls : List Text} (above : List Text) (h : Stacked pieces ls) :
    Stacked pieces (above ++ ls) := by
  cases h with
  | none => exact .none _
  | next between piece hrest =>
    rw [List.append_assoc, ← List.append_assoc, ← List.append_assoc]
    exact .next (above ++ between) piece hrest

theorem Stacked.eq_nil {pieces ls : List Text} (h : Stacked pieces ls) (hls : ls = []) :
    pieces = [] := by
  cases h with
  | none => rfl
  | next above piece hrest =>
    have hnone := (List.append_eq_nil_iff.1 (List.append_eq_nil_iff.1 hls).1).2
    exact absurd hnone (splitOn_ne_nil '\n' piece)

theorem join_append {sep : Text} {ls ls' : List Text} (h : ls ≠ []) (h' : ls' ≠ []) :
    join sep (ls ++ ls') = join sep ls ++ sep ++ join sep ls' := by
  induction ls with
  | nil => exact absurd rfl h
  | cons l ls ih =>
    by_cases hlast : ls = []
    · rw [hlast, List.singleton_append, join_cons h', join]
    · rw [List.cons_append, join_cons (by simp [hlast]), ih hlast, join_cons hlast]
      simp only [List.append_assoc]

/-- What stands before a line starts a line. -/
theorem exists_join_append (above : List Text) {ls : List Text} (h : ls ≠ []) :
    ∃ before, EndsLine before ∧ join ['\n'] (above ++ ls) = before ++ join ['\n'] ls := by
  by_cases habove : above = []
  · exact ⟨[], .inl rfl, by rw [habove]; rfl⟩
  · exact ⟨_, endsLine_append_break _, join_append habove h⟩

theorem Stacked.onOwnLines_join {pieces ls : List Text} (h : Stacked pieces ls) :
    OnOwnLines pieces (join ['\n'] ls) := by
  induction h with
  | none ls => exact .none _
  | @next above piece pieces rest hrest ih =>
    have hpiece := splitOn_ne_nil '\n' piece
    obtain ⟨before, hbefore, hjoin⟩ := exists_join_append above hpiece
    rw [join_splitOn] at hjoin
    by_cases hlast : rest = []
    · rw [hrest.eq_nil hlast, hlast, List.append_nil, hjoin]
      exact .last piece hbefore
    · rw [join_append (by simp [hpiece]) hlast, hjoin, List.append_assoc, List.singleton_append]
      exact .next piece hbefore ih

end Text

namespace Layout

open Text Token

variable {o : Options}

/-! ### Raw contents among the lines -/

/-- What a token is kept as: a raw content that is not blank and has no carriage returns, without
the line breaks around it. -/
def keptPiece? : Token → Option Text
  | .raw content _ =>
    if allBlank content || content.contains '\r' then none else some (withoutBreaks content)
  | _ => none

theorem rawBody_of_no_return {content : Text} (h : '\r' ∉ content) :
    rawBody content = splitOn '\n' (withoutBreaks content) := by
  have hline : ∀ l ∈ splitOn '\n' (withoutBreaks content), dropEndWhile (· == '\r') l = id l := by
    intro l hl
    have hwhole : withoutBreaks content <:+: content :=
      (List.rdropWhile_prefix _ _).isInfix.trans (List.dropWhile_suffix _).isInfix
    have hnone : '\r' ∉ l := fun hmem =>
      h (hwhole.subset ((isInfix_of_mem_splitOn hl).subset hmem))
    refine rdropWhile_eq_self_iff_getLast?.2 fun c hc => ?_
    have hc := List.mem_of_getLast? hc
    simp only [beq_eq_false_iff_ne]
    rintro rfl
    exact hnone hc
  rw [rawBody_eq, List.map_congr_left hline, List.map_id]

theorem all_allBlank_rawBody {content : Text} (h : allBlank content = false) :
    (rawBody content).all allBlank = false := by
  rw [Bool.eq_false_iff] at h ⊢
  intro hblank
  apply h
  rw [← solid_eq_nil_iff, ← solid_rawBody, solid_eq_nil_iff]
  refine List.all_eq_true.2 fun c hc => ?_
  obtain ⟨l, hl, hcl⟩ := List.mem_flatten.1 hc
  exact List.all_eq_true.1 (List.all_eq_true.1 hblank l hl) c hcl

/-- A raw content that is kept has the lines of its text. -/
theorem fst_rawLines_of_kept (hkeep : o.indentScripts = .keep) (s : State) {content piece : Text}
    {script : Bool} (h : keptPiece? (.raw content script) = some piece) :
    (rawLines o s content script).1 = splitOn '\n' piece := by
  rw [keptPiece?] at h
  split at h
  · cases h
  · rename_i hkept
    cases h
    simp only [Bool.or_eq_true, List.contains_iff_mem, not_or, Bool.not_eq_true] at hkept
    rw [rawLines, hkeep, ite_self, all_allBlank_rawBody hkept.1, rawBody_of_no_return hkept.2]
    rfl

/-- An element on one line has no raw content. -/
theorem filterMap_keptPiece?_drop {name markup content : Text} {used : Nat} {later : List Token}
    (h : inline? name markup later = some (content, used)) :
    (later.drop used).filterMap keptPiece? = later.filterMap keptPiece? := by
  rcases inline?_eq_some h with
    ⟨close, rest, rfl, rfl, rfl⟩ | ⟨whole, inner, close, rest, rfl, -, rfl, rfl⟩
  · rfl
  · rfl

/-- The raw contents stand among the lines in the order of the tokens. -/
theorem stacked_lines (hkeep : o.indentScripts = .keep) (s : State) (tokens : List Token) :
    Stacked (tokens.filterMap keptPiece?) (lines o s tokens) := by
  cases tokens with
  | nil => exact .none _
  | cons token later =>
    cases token with
    | opened name markup =>
      rw [List.filterMap_cons_none rfl]
      cases hinline : inline? name markup later with
      | none =>
        rw [lines, layOut, hinline]
        exact (stacked_lines hkeep _ later).append_left _
      | some found =>
        rw [lines, layOut_of_inline hinline, ← filterMap_keptPiece?_drop hinline]
        exact (stacked_lines hkeep _ (later.drop found.2)).append_left _
    | raw content script =>
      rw [lines_cons o s later (by simp)]
      cases hpiece : keptPiece? (.raw content script) with
      | none =>
        rw [List.filterMap_cons_none hpiece]
        exact (stacked_lines hkeep _ later).append_left _
      | some piece =>
        rw [List.filterMap_cons_some hpiece, tokenLines, fst_rawLines_of_kept hkeep s hpiece]
        exact .next [] piece (stacked_lines hkeep _ later)
    | closed _ _ | selfClosing _ | comment _ | text _ =>
      rw [lines_cons o s later (by simp), List.filterMap_cons_none rfl]
      exact (stacked_lines hkeep _ later).append_left _
termination_by tokens.length
decreasing_by all_goals (simp only [List.length_drop, List.length_cons]; omega)

/-! ### The whole text -/

/-- Where scripts are kept, each raw content that is not blank and has no carriage returns stands in
the text that is laid out, on lines of its own and in the order of the source. -/
theorem onOwnLines_format (heol : o.eol = "\n") (hkeep : o.indentScripts = .keep) (source : Text) :
    OnOwnLines ((Token.ofText o source).filterMap keptPiece?) (format o source) := by
  have heol' : o.eol = ['\n'] := heol
  have hlines := (stacked_lines hkeep .start (Token.ofText o source)).onOwnLines_join
  rw [format, print, joinLines_eq, heol']
  split
  · rwa [List.append_nil]
  · rcases finalBreak_cases o with hend | hend
    · rwa [hend, List.append_nil]
    · rw [hend, heol']
      exact hlines.append_break

/-- Two raw contents: a script with a blank line, blanks at the end of a line and what looks like a
tag, and an element that is copied as it stands. -/
def twoRawSample : Text := "<view><wxs>\n  a \n\n <b>\n\n</wxs>x<code> y</code></view>"

/-- The options with the content of `code` copied as it stands, and a line end after the text. -/
def codeCopied : Options :=
  { Options.default with unformatted := ["code"], endWithNewline := true }

theorem onOwnLines_format_sample :
    (Token.ofText codeCopied twoRawSample).filterMap keptPiece? =
        [("  a \n\n <b>" : Text), (" y" : Text)] ∧
      OnOwnLines [("  a \n\n <b>" : Text), (" y" : Text)] (format codeCopied twoRawSample) := by
  have hpieces : (Token.ofText codeCopied twoRawSample).filterMap keptPiece? =
      [("  a \n\n <b>" : Text), (" y" : Text)] := by decide +kernel
  have hlines := onOwnLines_format (o := codeCopied) rfl rfl twoRawSample
  rw [hpieces] at hlines
  exact ⟨hpieces, hlines⟩

end Layout

end Wxml
