import Wxml.Proofs.LayoutStable

/-!
# The indentation of scripts

Unless the lines of scripts are kept as they are, only how far they are indented against each other
counts.  `shiftLines` moves the lines of a text that are not blank.

* `rawBody_moved` and `rawLines_moved` are about the lines of a script that was moved,
* `lexed_replace_raw` and `scan_source_of_lexed` say that another script is read in its place,
* `format_moved` is the result.
-/

namespace Wxml

namespace Text

/-! ### Line breaks around a text -/

theorem rdropWhile_append_replicate {α : Type} {p : α → Bool} {c : α} (hc : p c = true)
    (l : List α) (n : Nat) : (l ++ List.replicate n c).rdropWhile p = l.rdropWhile p := by
  induction n with
  | zero => rw [List.replicate_zero, List.append_nil]
  | succ n ih =>
    rw [List.replicate_succ', ← List.append_assoc, List.rdropWhile_concat_pos _ _ _ hc, ih]

/-- Line breaks around a text make no difference. -/
theorem withoutBreaks_append (a b : Nat) (t : Text) :
    withoutBreaks (List.replicate a '\n' ++ t ++ List.replicate b '\n') = withoutBreaks t := by
  have hbreaks (n : Nat) : ∀ c ∈ List.replicate n '\n', (c == '\n') = true := by simp
  rw [withoutBreaks, List.append_assoc, List.dropWhile_append_of_pos (hbreaks a),
    List.dropWhile_append]
  split
  · rename_i hnone
    rw [List.dropWhile_eq_nil_iff.2 (hbreaks b), withoutBreaks, List.isEmpty_iff.1 hnone]
  · exact rdropWhile_append_replicate rfl _ b

theorem exists_eq_withoutBreaks (t : Text) :
    ∃ a b, t = List.replicate a '\n' ++ withoutBreaks t ++ List.replicate b '\n' := by
  have hstart : t.takeWhile (· == '\n') =
      List.replicate (t.takeWhile (· == '\n')).length '\n' := by
    refine List.eq_replicate_of_mem fun c hc => ?_
    simpa using List.mem_takeWhile_imp hc
  have hend : (t.dropWhile (· == '\n')).rtakeWhile (· == '\n') =
      List.replicate ((t.dropWhile (· == '\n')).rtakeWhile (· == '\n')).length '\n' := by
    refine List.eq_replicate_of_mem fun c hc => ?_
    simpa using List.mem_rtakeWhile_imp hc
  refine ⟨(t.takeWhile (· == '\n')).length,
    ((t.dropWhile (· == '\n')).rtakeWhile (· == '\n')).length, ?_⟩
  rw [List.append_assoc, ← hstart, ← hend]
  show t = _ ++ ((t.dropWhile (· == '\n')).rdropWhile (· == '\n') ++ _)
  rw [List.rdropWhile_append_rtakeWhile, List.takeWhile_append_dropWhile]

theorem withoutBreaks_withoutBreaks (t : Text) :
    withoutBreaks (withoutBreaks t) = withoutBreaks t := by
  obtain ⟨a, b, ht⟩ := exists_eq_withoutBreaks t
  have h := withoutBreaks_append a b (withoutBreaks t)
  rw [← ht] at h
  exact h.symm

/-! ### Moving the lines of a text -/

/-- A line with more indentation, unless it is blank. -/
def shiftLine (k : Nat) (l : Text) : Text := if allBlank l then l else List.replicate k ' ' ++ l

/-- A text with more indentation before each line that is not blank. -/
def shiftLines (k : Nat) (t : Text) : Text := join ['\n'] ((splitOn '\n' t).map (shiftLine k))

section

variable {k : Nat} {l : Text}

theorem shiftLine_of_allBlank (h : allBlank l = true) : shiftLine k l = l := if_pos h

theorem shiftLine_of_not_allBlank (h : ¬ allBlank l = true) :
    shiftLine k l = List.replicate k ' ' ++ l := if_neg h

theorem allBlank_replicate {c : Char} (hc : isBlank c = true) (n : Nat) :
    allBlank (List.replicate n c) = true := by
  refine List.all_eq_true.2 fun d hd => ?_
  rw [List.eq_of_mem_replicate hd, hc]

theorem allBlank_spaces (k : Nat) : allBlank (List.replicate k ' ') = true :=
  allBlank_replicate rfl k

theorem size_spaces (k : Nat) : size (List.replicate k ' ') = k := by
  induction k with
  | zero => rfl
  | succ k ih =>
    rw [List.replicate_succ, size_cons, ih, Nat.add_comm]
    rfl

theorem allBlank_shiftLine (k : Nat) (l : Text) : allBlank (shiftLine k l) = allBlank l := by
  by_cases h : allBlank l = true
  · rw [shiftLine_of_allBlank h]
  · rw [shiftLine_of_not_allBlank h, allBlank_append, allBlank_spaces, Bool.true_and]

theorem isEmpty_shiftLine (k : Nat) (l : Text) : (shiftLine k l).isEmpty = l.isEmpty := by
  cases l with
  | nil => rfl
  | cons c l =>
    unfold shiftLine
    split
    · rfl
    · simp

theorem not_break_mem_shiftLine (h : '\n' ∉ l) : '\n' ∉ shiftLine k l := by
  unfold shiftLine
  split
  · exact h
  · simp [h]

theorem splitOn_shiftLines (k : Nat) (t : Text) :
    splitOn '\n' (shiftLines k t) = (splitOn '\n' t).map (shiftLine k) := by
  refine splitOn_join (by simp [splitOn_ne_nil]) fun l hl => ?_
  obtain ⟨part, hpart, rfl⟩ := List.mem_map.1 hl
  exact not_break_mem_shiftLine (not_mem_of_mem_splitOn hpart)

theorem shiftLines_eq_nil_iff {k : Nat} {t : Text} : shiftLines k t = [] ↔ t = [] := by
  constructor
  · intro hnil
    have hlines := splitOn_shiftLines k t
    rw [hnil] at hlines
    obtain ⟨l, hl, hline⟩ := List.map_eq_singleton_iff.1 hlines.symm
    have hempty : l = [] := by simpa [hline] using (isEmpty_shiftLine k l).symm
    rw [← join_splitOn '\n' t, hl, hempty]
    rfl
  · rintro rfl
    rfl

theorem stripped_map {f : Text → Text} (hf : ∀ l, (f l).isEmpty = l.isEmpty) (ls : List Text) :
    stripped (ls.map f) = (stripped ls).map f := by
  have hsame : (fun l : Text => l.isEmpty) ∘ f = fun l => l.isEmpty := funext hf
  rw [stripped, List.dropWhile_map, hsame, List.rdropWhile, ← List.map_reverse,
    List.dropWhile_map, hsame, ← List.map_reverse, stripped, List.rdropWhile]

/-- The carriage returns at the end of a line stay where they are. -/
theorem dropEndWhile_shiftLine (k : Nat) (l : Text) :
    dropEndWhile (· == '\r') (shiftLine k l) = shiftLine k (dropEndWhile (· == '\r') l) := by
  have hblank : allBlank (dropEndWhile (· == '\r') l) = allBlank l := by
    have hwhole : dropEndWhile (· == '\r') l ++ l.rtakeWhile (· == '\r') = l :=
      List.rdropWhile_append_rtakeWhile
    have hreturns : allBlank (l.rtakeWhile (· == '\r')) = true := by
      refine List.all_eq_true.2 fun c hc => ?_
      have hc := List.mem_rtakeWhile_imp hc
      rw [beq_iff_eq] at hc
      rw [hc]
      rfl
    nth_rewrite 2 [← hwhole]
    rw [allBlank_append, hreturns, Bool.and_true]
  by_cases h : allBlank l = true
  · rw [shiftLine_of_allBlank h, shiftLine_of_allBlank (hblank.trans h)]
  · rw [shiftLine_of_not_allBlank h, shiftLine_of_not_allBlank (by rwa [hblank]), dropEndWhile,
      List.reverse_append, List.dropWhile_append, if_neg]
    · rw [List.reverse_append, List.reverse_reverse]
      rfl
    · intro hnone
      apply h
      rw [← hblank, dropEndWhile, List.isEmpty_iff.1 hnone]
      rfl

end

end Text

namespace Layout

open Text Token

variable {o : Options}

/-! ### Lines of a script that was moved -/

theorem rawBody_shiftLines (k : Nat) (t : Text) :
    rawBody (shiftLines k t) = (rawBody t).map (shiftLine k) := by
  by_cases hnone : withoutBreaks t = []
  · have hnone' : withoutBreaks (shiftLines k t) = [] := by
      rw [withoutBreaks_eq_nil_iff] at hnone ⊢
      rw [splitOn_shiftLines]
      intro l hl
      obtain ⟨part, hpart, rfl⟩ := List.mem_map.1 hl
      rw [hnone part hpart]
      rfl
    rw [rawBody_eq, rawBody_eq, hnone, hnone']
    rfl
  · have hsome : withoutBreaks (shiftLines k t) ≠ [] := by
      rw [ne_eq, withoutBreaks_eq_nil_iff, splitOn_shiftLines]
      refine fun h => hnone (withoutBreaks_eq_nil_iff.2 fun l hl => ?_)
      have hl := h _ (List.mem_map_of_mem hl)
      rw [← List.isEmpty_iff, isEmpty_shiftLine] at hl
      exact List.isEmpty_iff.1 hl
    rw [rawBody_eq, rawBody_eq, splitOn_withoutBreaks hsome, splitOn_withoutBreaks hnone,
      splitOn_shiftLines, stripped_map (isEmpty_shiftLine k), List.map_map, List.map_map]
    exact List.map_congr_left fun l _ => dropEndWhile_shiftLine k l

/-- The content of a script with its lines moved by `k` spaces, between `a` and `b` line breaks. -/
def moved (k a b : Nat) (content : Text) : Text :=
  List.replicate a '\n' ++ shiftLines k (withoutBreaks content) ++ List.replicate b '\n'

/-- A text that is not empty is not when its lines are moved and it keeps its line breaks. -/
theorem moved_ne_nil (k : Nat) {a b : Nat} {content : Text} (hne : content ≠ [])
    (hbreaks : content = List.replicate a '\n' ++ withoutBreaks content ++ List.replicate b '\n') :
    moved k a b content ≠ [] := by
  intro hnil
  simp only [moved, List.append_eq_nil_iff, shiftLines_eq_nil_iff] at hnil
  obtain ⟨⟨hstart, hlines⟩, hend⟩ := hnil
  rw [hstart, hlines, hend] at hbreaks
  exact hne hbreaks

theorem rawBody_moved (k a b : Nat) (content : Text) :
    rawBody (moved k a b content) = (rawBody content).map (shiftLine k) := by
  rw [rawBody_eq, moved, withoutBreaks_append, ← rawBody_eq, rawBody_shiftLines, rawBody_eq,
    withoutBreaks_withoutBreaks, ← rawBody_eq]

theorem commonIndent_map_shiftLine (k : Nat) {body : List Text} (h : body.all allBlank = false) :
    commonIndent (body.map (shiftLine k)) = k + commonIndent body := by
  have hsolid : solidLines (body.map (shiftLine k)) = (solidLines body).map (shiftLine k) :=
    solidLines_map fun l _ => allBlank_shiftLine k l
  have hline {l : Text} (hl : l ∈ solidLines body) : leading (shiftLine k l) = k + leading l := by
    rw [shiftLine_of_not_allBlank (not_allBlank_of_mem_solidLines hl),
      leading_append (allBlank_spaces k), size_spaces]
  apply commonIndent_of_leading
  · obtain ⟨l, hl, hleast⟩ := exists_leading_eq h
    rw [hsolid]
    exact ⟨_, List.mem_map_of_mem hl, by rw [hline hl, hleast]⟩
  · intro l hl
    rw [hsolid] at hl
    obtain ⟨line, hmem, rfl⟩ := List.mem_map.1 hl
    have hle := commonIndent_le (List.mem_filter.1 hmem).1
      (by simpa using not_allBlank_of_mem_solidLines hmem)
    rw [hline hmem]
    omega

theorem reindent_shiftLine (indent : Text) (k common : Nat) (l : Text) :
    reindent indent (k + common) (shiftLine k l) = reindent indent common l := by
  rw [reindent_eq, allBlank_shiftLine, reindent_eq]
  by_cases h : allBlank l = true
  · rw [if_pos h, if_pos h]
  · have hdrop := dropBytes?_size_append (List.replicate k ' ') common l
    have htrim : trimStart (List.replicate k ' ' ++ l) = trimStart l :=
      List.dropWhile_append_of_pos (List.all_eq_true.1 (allBlank_spaces k))
    rw [size_spaces] at hdrop
    rw [if_neg h, if_neg h, shiftLine_of_not_allBlank h, cut, hdrop, htrim, cut]

/-- A script that was moved has the same lines, unless they are kept as they are. -/
theorem rawLines_moved (hmode : o.indentScripts ≠ .keep) (s : State) (k a b : Nat)
    (content : Text) :
    rawLines o s (moved k a b content) true = rawLines o s content true := by
  have hblank : ((rawBody content).map (shiftLine k)).all allBlank =
      (rawBody content).all allBlank := by
    rw [List.all_map]
    exact congrArg (List.all _) (funext fun l => allBlank_shiftLine k l)
  unfold rawLines
  simp only [rawBody_moved, hblank, if_true]
  by_cases hnone : (rawBody content).all allBlank = true
  · rw [if_pos hnone, if_pos hnone]
  · have hcommon := commonIndent_map_shiftLine k (Bool.eq_false_iff.2 hnone)
    have hlines (indent : Text) : ((rawBody content).map (shiftLine k)).map (reindent indent
        (commonIndent ((rawBody content).map (shiftLine k)))) =
        (rawBody content).map (reindent indent (commonIndent (rawBody content))) := by
      rw [hcommon, List.map_map]
      exact List.map_congr_left fun l _ => reindent_shiftLine indent k _ l
    rw [if_neg hnone, if_neg hnone]
    cases hcase : o.indentScripts with
    | keep => exact absurd hcase hmode
    | separate | normal => simp only [hlines]

/-! ### Another script in its place -/

/-- No closing tag comes about in a script that was moved. -/
theorem isInfix_of_isInfix_moved {pattern : Text} (hne : pattern ≠ [])
    (hsolid : ∀ c ∈ pattern, isBlank c = false) {k a b : Nat} {content : Text}
    (h : pattern <:+: moved k a b content) : pattern <:+: content := by
  have hbreaks (n : Nat) : allBlank (List.replicate n '\n') = true := allBlank_replicate rfl n
  have hinside := isInfix_of_blank_append hne hsolid (hbreaks a)
    (isInfix_of_append_blank hne hsolid (hbreaks b) h)
  have hjoin : ['\n'] ++ shiftLines k (withoutBreaks content) =
      (((splitOn '\n' (withoutBreaks content)).map (shiftLine k)).map (['\n'] ++ ·)).flatten := by
    obtain ⟨l, ls, hl⟩ := List.exists_cons_of_ne_nil (splitOn_ne_nil '\n' (withoutBreaks content))
    rw [shiftLines, hl, List.map_cons, join_cons_eq]
    simp
  have hlines := hinside.trans (List.suffix_append ['\n'] _).isInfix
  rw [hjoin] at hlines
  obtain ⟨l, hl, hin⟩ := exists_mem_of_isInfix_flatten hne hsolid (by simp) (by decide) hlines
  obtain ⟨part, hpart, rfl⟩ := List.mem_map.1 hl
  have hpart' : pattern <:+: part := by
    by_cases hblank : allBlank part = true
    · rwa [shiftLine_of_allBlank hblank] at hin
    · rw [shiftLine_of_not_allBlank hblank] at hin
      exact isInfix_of_blank_append hne hsolid (allBlank_spaces k) hin
  obtain ⟨c, d, hcontent⟩ := exists_eq_withoutBreaks content
  rw [hcontent]
  exact hpart'.trans ((isInfix_of_mem_splitOn hpart).trans ⟨_, _, rfl⟩)

theorem exists_of_append_eq {α : Type} {x : α} {pre rest before after : List α} (hx : x ∉ pre)
    (h : pre ++ rest = before ++ x :: after) :
    ∃ middle, before = pre ++ middle ∧ rest = middle ++ x :: after := by
  rcases List.append_eq_append_iff.1 h with ⟨middle, hbefore, hrest⟩ | ⟨middle, hpre, hrest⟩
  · exact ⟨middle, hbefore, hrest⟩
  · cases middle with
    | nil => exact ⟨[], by simpa using hpre.symm, hrest.symm⟩
    | cons y middle =>
      cases hrest
      exact absurd (by simp [hpre]) hx

section

variable {element : Option RawElement} {content : Text} {script : Bool}
  {tokens before after : List Token}

theorem not_raw_mem_sign {t : Text} {m : Token} (hm : Sign m) :
    Token.raw content script ∉ text? t ++ [m] := by
  rw [List.mem_append, not_or, List.mem_singleton]
  refine ⟨by simp, ?_⟩
  rintro rfl
  cases hm.isMark

/-- Raw content does not come first. -/
theorem not_lexed_raw : ¬ Lexed o none (.raw content script :: after) := by
  generalize htokens : Token.raw content script :: after = tokens
  intro h
  cases h with
  | @last t u _ ht hu =>
    have hmem : Token.raw content script ∈ text? t ++ text? u := by simp [← htokens]
    simp at hmem
  | @unclosed t u ht hu =>
    have hmem : Token.raw content script ∈ text? t ++ [.comment u] := by simp [← htokens]
    simp at hmem
  | @sign t m later ht hm hlater =>
    have hcut : (text? t ++ [m]) ++ later = [] ++ .raw content script :: after := by
      simp [htokens]
    obtain ⟨middle, hnil, -⟩ := exists_of_append_eq (not_raw_mem_sign hm) hcut
    simp at hnil

/-- Another raw content without a closing tag can be in the place of one. -/
theorem lexed_replace_raw {content' : Text} (hne : content' ≠ [])
    (hclosing : ∀ e : RawElement, e.Named → e.closing <:+: content' → e.closing <:+: content)
    (h : Lexed o element tokens) (htokens : tokens = before ++ .raw content script :: after) :
    Lexed o element (before ++ .raw content' script :: after) := by
  have hmem : Token.raw content script ∈ tokens := by simp [htokens]
  induction h generalizing before with
  | last ht hu => simp at hmem
  | unclosed ht hu => simp at hmem
  | @sign t m later ht hm hlater ih =>
    have hcut : (text? t ++ [m]) ++ later = before ++ .raw content script :: after := by
      simp [← htokens]
    obtain ⟨middle, rfl, hlater'⟩ := exists_of_append_eq (not_raw_mem_sign hm) hcut
    have hsign := Lexed.sign ht hm (ih hlater' (by simp [hlater']))
    simpa using hsign
  | @raw e c later he hcontent hclose hlater ih =>
    -- The content is not the one that is replaced, so that one comes later.
    have hthere (middle : List Token) (hlater' : later = middle ++ .raw content script :: after) :
        Lexed o (some e) (raw? c e.script ++ (middle ++ .raw content' script :: after)) := by
      refine .raw he hcontent ?_ (ih hlater' (by simp [hlater']))
      cases middle with
      | nil => exact absurd (hlater' ▸ hlater) not_lexed_raw
      | cons first middle =>
        rw [hlater'] at hclose
        exact hclose
    by_cases hc : c = []
    · subst hc
      exact hthere before htokens
    · rw [raw?_of_ne_nil hc, List.singleton_append] at htokens
      cases before with
      | nil =>
        cases htokens
        have hraw := Lexed.raw he (fun hin => hcontent (hclosing e he hin)) hclose hlater
        rwa [raw?_of_ne_nil hne] at hraw
      | cons first middle =>
        cases htokens
        have hraw := hthere middle rfl
        rwa [raw?_of_ne_nil hc] at hraw

theorem script_of_lexed_raw {e : RawElement} (h : Lexed o (some e) (.raw content script :: after)) :
    e.script = script := by
  generalize htokens : Token.raw content script :: after = tokens at h
  cases h with
  | @raw _ c later _ _ _ hlater =>
    by_cases hc : c = []
    · subst hc
      have hsame : Token.raw content script :: after = later := htokens
      exact absurd (hsame ▸ hlater) not_lexed_raw
    · rw [raw?_of_ne_nil hc] at htokens
      cases htokens
      rfl

/-- The raw content after an opening tag is a script or not, as the tag says. -/
theorem script_of_lexed {m : Token} (h : Lexed o element tokens)
    (htokens : tokens = before ++ m :: .raw content script :: after) :
    ∃ e, m.rawAfter o = some e ∧ e.script = script := by
  have hmem : Token.raw content script ∈ tokens := by simp [htokens]
  induction h generalizing before with
  | last ht hu => simp at hmem
  | unclosed ht hu => simp at hmem
  | @sign t m' later ht hm hlater ih =>
    have hcut : (text? t ++ [m']) ++ later = (before ++ [m]) ++ .raw content script :: after := by
      simp [← htokens]
    obtain ⟨middle, hbefore, rfl⟩ := exists_of_append_eq (not_raw_mem_sign hm) hcut
    rcases List.eq_nil_or_concat middle with rfl | ⟨middle, last, rfl⟩
    · rw [List.append_nil] at hbefore
      obtain ⟨-, hlast⟩ := List.append_inj' hbefore rfl
      cases hlast
      cases helement : m.rawAfter o with
      | none => exact absurd (helement ▸ hlater) not_lexed_raw
      | some e => exact ⟨e, rfl, script_of_lexed_raw (helement ▸ hlater)⟩
    · rw [List.concat_eq_append, ← List.append_assoc] at hbefore
      obtain ⟨-, hlast⟩ := List.append_inj' hbefore rfl
      cases hlast
      exact ih (by rw [List.concat_eq_append, List.append_assoc]; rfl) (by simp)
  | @raw e c later he hcontent hclose hlater ih =>
    by_cases hc : c = []
    · subst hc
      exact ih htokens hmem
    · rw [raw?_of_ne_nil hc, List.singleton_append] at htokens
      cases before with
      | nil =>
        cases htokens
        exact absurd hlater not_lexed_raw
      | cons first middle =>
        cases htokens
        exact ih rfl (by simp)

end

/-- Tokens of a text are read again from what they stand for. -/
theorem scan_source_of_lexed {element : Option RawElement} {tokens : List Token}
    (h : Lexed o element tokens) : scan o element (tokens.map Token.source).flatten = tokens := by
  have htext (t : Text) : ((text? t).map Token.source).flatten = t := by
    by_cases ht : t = []
    · rw [ht]
      rfl
    · simp [text?_of_ne_nil ht, source]
  induction h with
  | @last t u after ht hu =>
    rw [List.map_append, List.flatten_append, htext, htext]
    rcases hu with rfl | ⟨rfl, hu⟩
    · rw [scan_text_append o ht (.inl rfl), scan_nil]
      rfl
    · rw [scan_text_append o ht (.inr ⟨rfl, hu.starts⟩), scan_of_unended hu,
        text?_of_ne_nil (ne_nil_of_startsMarkup hu.starts)]
  | @unclosed t u ht hu =>
    have hstarts := startsMarkup_of_comment hu.starts
    rw [List.map_append, List.flatten_append, htext]
    simp only [List.map_singleton, List.flatten_singleton, source]
    rw [scan_text_append o ht (.inr ⟨rfl, hstarts⟩), scan_of_unclosed hu]
  | @sign t m later ht hm hlater ih =>
    rw [List.map_append, List.flatten_append, htext, List.map_cons, List.flatten_cons,
      scan_text_append o ht (.inr ⟨rfl, startsMarkup_append_right hm.starts _⟩), scan_of_sign hm,
      ih]
  | @raw e content later he hcontent hclose hlater ih =>
    have hraw : ((raw? content e.script).map Token.source).flatten = content := by
      by_cases hnil : content = []
      · rw [hnil]
        rfl
      · simp [raw?_of_ne_nil hnil, source]
    rw [List.map_append, List.flatten_append, hraw, scan_raw]
    cases later with
    | nil =>
      rw [List.map_nil, List.flatten_nil, List.append_nil, breakOn_of_not_isInfix hcontent,
        scan_nil]
    | cons token later =>
      have hstart : e.closing <+: ((token :: later).map Token.source).flatten :=
        (hclose token rfl).trans (List.prefix_append ..)
      rw [he.breakOn_append hcontent hstart, ih]

/-! ### The whole text -/

/-- An element on one line has no raw content. -/
theorem inline?_replace_raw (name markup content content' : Text) (script : Bool)
    (rest after : List Token) :
    inline? name markup (rest ++ .raw content' script :: after) =
      inline? name markup (rest ++ .raw content script :: after) := by
  cases rest with
  | nil => rfl
  | cons token rest =>
    cases token with
    | text _ =>
      cases rest with
      | nil => rfl
      | cons token rest => cases token <;> rfl
    | _ => rfl

theorem used_le_of_inline? {name markup content inner : Text} {script : Bool} {used : Nat}
    {rest after : List Token}
    (h : inline? name markup (rest ++ .raw content script :: after) = some (inner, used)) :
    used ≤ rest.length := by
  rcases inline?_eq_some h with
    ⟨close, later, hlater, -, rfl⟩ | ⟨whole, text, close, later, hlater, -, -, rfl⟩
  · cases rest with
    | nil => cases hlater
    | cons first rest => simp
  · cases rest with
    | nil => cases hlater
    | cons first rest =>
      cases rest with
      | nil => cases hlater
      | cons second rest => simp

/-- A raw content counts only for the lines it has. -/
theorem lines_replace_raw {content content' : Text} {script : Bool}
    (hraw : ∀ s, rawLines o s content' script = rawLines o s content script)
    (before after : List Token) (s : State) :
    lines o s (before ++ .raw content' script :: after) =
      lines o s (before ++ .raw content script :: after) := by
  cases before with
  | nil =>
    rw [List.nil_append, List.nil_append, lines_cons o s after (by simp),
      lines_cons o s after (by simp), tokenLines, tokenLines, hraw]
  | cons token rest =>
    rw [List.cons_append, List.cons_append]
    cases token with
    | opened name markup =>
      have hsame := inline?_replace_raw name markup content content' script rest after
      cases hinline : inline? name markup (rest ++ .raw content script :: after) with
      | none =>
        rw [hinline] at hsame
        rw [lines_of_alone rfl s (by rintro _ _ ⟨⟩; exact hsame),
          lines_of_alone rfl s (by rintro _ _ ⟨⟩; exact hinline), lines_replace_raw hraw]
      | some found =>
        have hused := used_le_of_inline? hinline
        rw [hinline] at hsame
        rw [lines_of_inline s hsame, lines_of_inline s hinline,
          List.drop_append_of_le_length hused, List.drop_append_of_le_length hused,
          lines_replace_raw hraw]
    | closed _ _ | selfClosing _ | comment _ | text _ | raw _ _ =>
      rw [lines_cons o s _ (by simp), lines_cons o s _ (by simp), lines_replace_raw hraw]
termination_by before.length

/-- A script in any place of a text can be moved, with any line breaks around it, and is laid out
the same.  It must not become empty, since an empty element stands on one line; with its own line
breaks it does not (`moved_ne_nil`). -/
theorem format_moved (hmode : o.indentScripts ≠ .keep) {source name markup content : Text}
    {script : Bool} {before after : List Token} (hname : name ∈ scriptTags)
    (hsource : Token.ofText o source =
      before ++ .opened name markup :: .raw content script :: after)
    {k a b : Nat} (hne : moved k a b content ≠ []) :
    format o ((before.map Token.source).flatten ++ markup ++ moved k a b content ++
      (after.map Token.source).flatten) = format o source := by
  have hlexed : Lexed o none (Token.ofText o source) := lexed_scan o source
  have hscript : script = true := by
    obtain ⟨e, he, rfl⟩ := script_of_lexed hlexed hsource
    rw [rawAfter, if_pos (List.contains_iff_mem.2 hname)] at he
    cases he
    rfl
  subst hscript
  have hcut : Token.ofText o source =
      (before ++ [.opened name markup]) ++ .raw content true :: after := by simp [hsource]
  have hreplaced := scan_source_of_lexed (lexed_replace_raw hne
    (fun e he => isInfix_of_isInfix_moved e.closing_ne_nil he.not_isBlank) hlexed hcut)
  have htext : ((before.map Token.source).flatten ++ markup ++ moved k a b content ++
      (after.map Token.source).flatten) =
      (((before ++ [Token.opened name markup]) ++ Token.raw (moved k a b content) true :: after).map
        Token.source).flatten := by simp [Token.source]
  rw [format, Token.ofText, htext, hreplaced, print,
    lines_replace_raw (fun s => rawLines_moved hmode s k a b content), ← hcut]
  rfl

/-- A script with tabs, a blank line and a carriage return. -/
def tabbedScript : Text := "\n\t a\n \n\t\tb\r\n"

/-- The options with the lines of scripts as deep as their element. -/
def normalScripts : Options := { Options.default with indentScripts := .normal }

theorem format_moved_sample :
    moved 3 0 2 tabbedScript = ("   \t a\n \n   \t\tb\r\n\n" : Text) ∧
      format normalScripts ("<view><wxs>" ++ moved 3 0 2 tabbedScript ++ "</wxs></view>") =
        format normalScripts ("<view><wxs>" ++ tabbedScript ++ "</wxs></view>") ∧
      ∀ k, format normalScripts ("<view><wxs>" ++ moved k 1 1 tabbedScript ++ "</wxs></view>") =
        format normalScripts ("<view><wxs>" ++ tabbedScript ++ "</wxs></view>") := by
  have hname : ("wxs" : Text) ∈ scriptTags := by decide
  have hsource : Token.ofText normalScripts ("<view><wxs>" ++ tabbedScript ++ "</wxs></view>") =
      [.opened "view" "<view>"] ++ .opened "wxs" "<wxs>" :: .raw tabbedScript true ::
        [.closed "wxs" "</wxs>", .closed "view" "</view>"] := by decide +kernel
  have hne : moved 3 0 2 tabbedScript ≠ [] := by decide +kernel
  have hbreaks : tabbedScript =
      List.replicate 1 '\n' ++ withoutBreaks tabbedScript ++ List.replicate 1 '\n' := by
    decide +kernel
  exact ⟨by decide +kernel, format_moved (by decide) hname hsource hne,
    fun k => format_moved (by decide) hname hsource (moved_ne_nil k (by decide) hbreaks)⟩

end Layout

end Wxml
