import Wxml.Layout
import Wxml.Proofs.Text

/-!
# What layout keeps

Layout moves blanks only: whatever the markup is, `Text.solid` of it, the text without its blanks,
stays the same.

* `Token.flatten_source_scan` says that no character falls between two tokens.
* `solid_tokenLines` and `solid_inline?` say the same of the lines of one token and of an element on
  one line, and `solid_lines` of all lines.
* `solid_format` is the result.
-/

namespace Wxml

namespace Text

/-- The characters of a text that are not blank. -/
def solid (t : Text) : Text := t.filter (!isBlank ·)

@[simp]
theorem solid_nil : solid [] = [] := rfl

@[simp]
theorem solid_append (s t : Text) : solid (s ++ t) = solid s ++ solid t := List.filter_append ..

theorem solid_cons_of_isBlank {c : Char} (h : isBlank c = true) (t : Text) :
    solid (c :: t) = solid t := by
  simp [solid, h]

theorem solid_eq_nil_iff {t : Text} : solid t = [] ↔ allBlank t = true := by
  simp [solid, allBlank]

theorem solid_dropWhile {p : Char → Bool} (hp : ∀ c, p c = true → isBlank c = true) (t : Text) :
    solid (t.dropWhile p) = solid t := by
  induction t with
  | nil => rfl
  | cons c t ih =>
    by_cases hc : p c = true
    · rw [List.dropWhile_cons_of_pos hc, ih, solid_cons_of_isBlank (hp c hc)]
    · rw [List.dropWhile_cons_of_neg hc]

theorem solid_dropEndWhile {p : Char → Bool} (hp : ∀ c, p c = true → isBlank c = true) (t : Text) :
    solid (dropEndWhile p t) = solid t := by
  have h := solid_dropWhile hp t.reverse
  unfold solid dropEndWhile at *
  rw [List.filter_reverse, h, List.filter_reverse, List.reverse_reverse]

@[simp]
theorem solid_trim (t : Text) : solid (trim t) = solid t := by
  rw [trim, trimEnd, solid_dropEndWhile fun _ => id, trimStart, solid_dropWhile fun _ => id]

theorem splitOn_ne_nil (sep : Char) (t : Text) : splitOn sep t ≠ [] := by
  unfold splitOn
  split
  · simp
  · split
    · simp
    · split <;> simp

theorem join_cons {sep t : Text} {ts : List Text} (h : ts ≠ []) :
    join sep (t :: ts) = t ++ sep ++ join sep ts := by
  cases ts with
  | nil => exact absurd rfl h
  | cons _ _ => rfl

/-- A text is its parts with the separator between them. -/
theorem join_splitOn (sep : Char) (t : Text) : join [sep] (splitOn sep t) = t := by
  induction t with
  | nil => rfl
  | cons c t ih =>
    by_cases hc : c = sep
    · rw [splitOn, if_pos (by simpa using hc), join_cons (splitOn_ne_nil sep t), ih, hc]
      rfl
    · rw [splitOn, if_neg (by simpa using hc)]
      cases hparts : splitOn sep t with
      | nil => exact absurd hparts (splitOn_ne_nil sep t)
      | cons part parts =>
        rw [hparts] at ih
        cases parts with
        | nil => rw [← ih]; rfl
        | cons _ _ => rw [← ih]; rfl

theorem solid_join {sep : Text} (hsep : solid sep = []) (ts : List Text) :
    solid (join sep ts) = solid ts.flatten := by
  fun_induction join sep ts with
  | case1 => rfl
  | case2 t => simp
  | case3 t ts hts ih => simp [hsep, ih]

theorem solid_flatten_splitOn {sep : Char} (hsep : isBlank sep = true) (t : Text) :
    solid (splitOn sep t).flatten = solid t := by
  have h : solid [sep] = [] := solid_cons_of_isBlank hsep []
  rw [← solid_join h, join_splitOn]

/-- Bytes that are dropped inside the blanks at the start of a text are blanks. -/
theorem solid_of_dropBytes? {n : Nat} {t rest : Text} (h : dropBytes? n t = some rest)
    (hn : n ≤ size (t.takeWhile isBlank)) : solid rest = solid t := by
  fun_induction dropBytes? n t with
  | case1 t =>
    cases h
    rfl
  | case2 n => cases h
  | case3 n c t hsize ih =>
    by_cases hc : isBlank c = true
    · rw [List.takeWhile_cons_of_pos hc, size_cons] at hn
      rw [ih h (by omega), solid_cons_of_isBlank hc]
    · rw [List.takeWhile_cons_of_neg hc] at hn
      cases hn
  | case4 n c t hsize => cases h

end Text

namespace Layout

open Text

/-! ### Tokens -/

namespace Token

theorem isPrefix_source_ofComment (t : Text) : (ofComment t).source <+: t := by
  unfold ofComment
  split
  · exact List.prefix_rfl
  · exact List.take_prefix ..

theorem isPrefix_source_first (t : Text) : (first t).source <+: t := by
  unfold first
  split
  · exact isPrefix_source_ofComment t
  · split
    · split
      · rw [source_ofTag]
        exact List.take_prefix ..
      · exact List.prefix_rfl
    · exact List.take_prefix ..

theorem isPrefix_source_next (element : Option RawElement) (t : Text) :
    (next element t).source <+: t := by
  unfold next
  split
  · exact isPrefix_source_first t
  · simp only
    split
    · exact isPrefix_source_first t
    · exact ⟨_, breakOn_append _ t⟩

/-- The tokens of a text put together again. -/
theorem flatten_source_scan (o : Options) (element : Option RawElement) (t : Text) :
    ((scan o element t).map source).flatten = t := by
  fun_induction scan o element t with
  | case1 => rfl
  | case2 element t hend token ih =>
    rw [List.map_cons, List.flatten_cons, ih]
    exact (List.prefix_append_drop (isPrefix_source_next element t)).symm

end Token

/-! ### Lines -/

variable {o : Options}

theorem solid_indent (hunit : allBlank o.indentUnit = true) (level : Nat) :
    solid (o.indent level) = [] := by
  unfold Options.indent
  induction level with
  | zero => rfl
  | succ level ih =>
    rw [List.replicate_succ, List.flatten_cons, solid_append, ih, solid_eq_nil_iff.2 hunit]
    rfl

theorem solid_line (hunit : allBlank o.indentUnit = true) (s : State) (content : Text) :
    solid (line o s content).1.flatten = solid content := by
  unfold line
  split <;> simp [solid_indent hunit]

theorem solid_textParts (hunit : allBlank o.indentUnit = true) (s : State) (breaks : Nat)
    (parts : List Text) : solid (textParts o s breaks parts).1.flatten = solid parts.flatten := by
  fun_induction textParts o s breaks parts with
  | case1 => rfl
  | case2 s breaks part parts content hempty ih =>
    have hpart : solid part = [] := by
      rw [← solid_trim]
      show solid content = []
      rw [List.isEmpty_iff.1 hempty, solid_nil]
    rw [ih, List.flatten_cons, solid_append, hpart, List.nil_append]
  | case3 s breaks part parts content hempty here s' hline later s'' hlater ih =>
    have hhere := solid_line hunit (noteBreaks o s breaks) content
    rw [hline] at hhere
    rw [hlater] at ih
    simp only [List.flatten_append, List.flatten_cons, solid_append, ih]
    rw [hhere, solid_trim]

/-- Lines that each keep their content keep it together. -/
theorem solid_flatten_map {f : Text → Text} {ls : List Text}
    (h : ∀ l ∈ ls, solid (f l) = solid l) : solid (ls.map f).flatten = solid ls.flatten := by
  induction ls with
  | nil => rfl
  | cons l ls ih =>
    obtain ⟨hl, hls⟩ := List.forall_mem_cons.1 h
    rw [List.map_cons, List.flatten_cons, List.flatten_cons, solid_append, solid_append, hl, ih hls]

theorem solid_rawBody (content : Text) : solid (rawBody content).flatten = solid content := by
  have hbreak : ∀ c, (c == '\n') = true → isBlank c = true := by
    simp
    decide
  have hreturn : ∀ c, (c == '\r') = true → isBlank c = true := by
    simp
    decide
  rw [rawBody, solid_flatten_map fun l _ => solid_dropEndWhile hreturn l,
    solid_flatten_splitOn (by decide), solid_dropEndWhile hbreak,
    solid_dropWhile hbreak]

theorem commonIndent_le {body : List Text} {l : Text} (hl : l ∈ body) (h : allBlank l = false) :
    commonIndent body ≤ leading l := by
  apply List.min?_getD_le_of_mem
  exact List.mem_map_of_mem (List.mem_filter.2 ⟨hl, by simp [h]⟩)

theorem solid_reindent {indent l : Text} {common : Nat} (hindent : solid indent = [])
    (hcommon : allBlank l = false → common ≤ leading l) :
    solid (reindent indent common l) = solid l := by
  unfold reindent
  split
  · rename_i hblank
    rw [solid_eq_nil_iff.2 hblank]
    rfl
  · rename_i hblank
    rw [solid_append, hindent, List.nil_append]
    cases hdrop : dropBytes? common l with
    | none => exact solid_dropWhile (fun _ => id) l
    | some rest => exact solid_of_dropBytes? hdrop (hcommon (by simpa using hblank))

theorem solid_rawLines (hunit : allBlank o.indentUnit = true) (s : State) (content : Text)
    (script : Bool) : solid (rawLines o s content script).1.flatten = solid content := by
  have hbody := solid_rawBody content
  unfold rawLines
  simp only
  split
  · rename_i hblank
    rw [← hbody, List.flatten_nil, solid_nil, eq_comm, solid_eq_nil_iff, allBlank,
      List.all_flatten]
    exact hblank
  · have hreindent : ∀ indent, solid indent = [] →
        solid ((rawBody content).map (reindent indent (commonIndent (rawBody content)))).flatten =
          solid content := by
      intro indent hindent
      rw [← hbody]
      exact solid_flatten_map fun l hl => solid_reindent hindent (commonIndent_le hl)
    split
    · exact hbody
    · exact hreindent [] rfl
    · exact hreindent _ (solid_indent hunit s.level)

theorem solid_tokenLines (hunit : allBlank o.indentUnit = true) (s : State) (token : Token) :
    solid (tokenLines o s token).1.flatten = solid token.source := by
  cases token with
  | opened name markup => exact solid_line hunit s markup
  | closed name markup => exact solid_line hunit _ markup
  | selfClosing markup => exact solid_line hunit s markup
  | comment markup => exact solid_line hunit s markup
  | text content =>
    show solid (textParts o s 0 _).1.flatten = solid content
    rw [solid_textParts hunit, solid_flatten_splitOn (by decide)]
  | raw content script => exact solid_rawLines hunit s content script

/-- An element on one line is all of the tokens that belong to it. -/
theorem solid_inline? {name markup content : Text} {tokens : List Token} {used : Nat}
    (h : inline? name markup tokens = some (content, used)) :
    solid content = solid (markup ++ ((tokens.take used).map Token.source).flatten) := by
  unfold inline? at h
  split at h
  · split at h
    · cases h
      simp [Token.source]
    · cases h
  · split at h
    · split at h
      · cases h
        simp [Token.source]
      · simp only at h
        split at h
        · cases h
          simp [Token.source]
        · cases h
    · cases h
  · cases h

theorem solid_lines (hunit : allBlank o.indentUnit = true) (s : State) (tokens : List Token) :
    solid (lines o s tokens).flatten = solid (tokens.map Token.source).flatten := by
  rw [lines]
  fun_induction layOut o s tokens with
  | case1 => rfl
  | case2 s name markup tokens content used hinline ih =>
    have hsplit : (tokens.map Token.source).flatten =
        ((tokens.take used).map Token.source).flatten ++
          ((tokens.drop used).map Token.source).flatten := by
      rw [← List.flatten_append, ← List.map_append, List.take_append_drop]
    rw [andThen, List.flatten_append, solid_append, ih, solid_line hunit, solid_inline? hinline,
      ← solid_append, List.append_assoc, ← hsplit]
    rfl
  | case3 s name markup tokens hinline ih =>
    rw [andThen, List.flatten_append, solid_append, ih, solid_tokenLines hunit, List.map_cons,
      List.flatten_cons, solid_append]
  | case4 s token tokens hopened ih =>
    rw [andThen, List.flatten_append, solid_append, ih, solid_tokenLines hunit, List.map_cons,
      List.flatten_cons, solid_append]

/-- Layout changes blanks only, in any text. -/
theorem solid_format (heol : allBlank o.eol = true) (hunit : allBlank o.indentUnit = true)
    (source : Text) : solid (format o source) = solid source := by
  have hsep : solid o.eol = [] := solid_eq_nil_iff.2 heol
  have hlines : solid (join o.eol (lines o .start (Token.ofText o source))) = solid source := by
    rw [solid_join hsep, solid_lines hunit, Token.ofText, Token.flatten_source_scan]
  unfold format print joinLines
  simp only
  split
  · rw [solid_append, hsep, List.append_nil, hlines]
  · exact hlines

/-- Tags, comments and interpolations that do not end, a closing tag without an opening one, blanks
of three bytes before the lines of a script, and an element on one line. -/
def brokenSample : Text :=
  "</a><b> x </b>\n<wxs>\n  f\n  g</wxs>\x7b\x7b p < q\n<c d='> <!-- e"

def tabbed : Options := ⟨0, ' ', true, true, 2, .normal, [], true, "\r\n"⟩

theorem solid_format_sample :
    allBlank tabbed.eol = true ∧ allBlank tabbed.indentUnit = true ∧
      format tabbed brokenSample ≠ brokenSample ∧
      solid (format tabbed brokenSample) = solid brokenSample :=
  ⟨by decide, by decide, by decide +kernel, solid_format (by decide) (by decide) brokenSample⟩

end Layout

end Wxml
