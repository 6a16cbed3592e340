import Wxml.Proofs.LayoutText
import Wxml.Proofs.LayoutTokens

/-!
# Lines of raw content

The lines of a raw content are those between the line breaks around it (`rawBody_eq`).  `rawRows`
are the lines they are laid out as: each as it is, or without the indentation they have in common.

* `not_isInfix_rows` says that no closing tag comes about in them,
* `relined_of_mem_rawRows` that a line which was laid out stays as it is,
* `rawRows_written` and `rawRows_written_ne` what they are when they are read and laid out again.
-/

namespace Wxml

namespace Text

/-! ### Lines at the ends of a text -/

/-- Without the separators at its start, a text has no empty parts there. -/
theorem splitOn_dropWhile {sep : Char} {t : Text} (h : t.dropWhile (· == sep) ≠ []) :
    splitOn sep (t.dropWhile (· == sep)) = (splitOn sep t).dropWhile (·.isEmpty) := by
  induction t with
  | nil => exact absurd rfl h
  | cons c t ih =>
    by_cases hc : c = sep
    · have hpos : (c == sep) = true := by simpa using hc
      rw [List.dropWhile_cons, if_pos hpos] at h ⊢
      rw [ih h, splitOn, if_pos hpos]
      rfl
    · have hneg : ¬ (c == sep) = true := by simpa using hc
      rw [List.dropWhile_cons, if_neg hneg, splitOn, if_neg hneg]
      cases splitOn sep t with
      | nil => rfl
      | cons part parts => rfl

theorem splitOn_reverse (sep : Char) (t : Text) :
    splitOn sep t.reverse = ((splitOn sep t).map List.reverse).reverse := by
  induction t with
  | nil => rfl
  | cons c t ih =>
    rw [List.reverse_cons]
    by_cases hc : c = sep
    · have hcons : splitOn sep (sep :: t) = [] :: splitOn sep t := by
        rw [splitOn, if_pos (by simp)]
      rw [hc, splitOn_append_cons, ih, hcons]
      simp [splitOn]
    · have hsep : sep ∉ [c] := by simpa using Ne.symm hc
      obtain ⟨parts, last, hparts, happend⟩ := exists_splitOn_append t.reverse hsep
      rw [happend, splitOn, if_neg (by simpa using hc)]
      rw [ih] at hparts
      have hsplit : splitOn sep t = last.reverse :: (parts.map List.reverse).reverse := by
        have := congrArg (fun ls => (ls.map List.reverse).reverse) hparts
        simpa [List.map_map] using this
      simp [hsplit]

theorem splitOn_dropEndWhile {sep : Char} {t : Text} (h : dropEndWhile (· == sep) t ≠ []) :
    splitOn sep (dropEndWhile (· == sep) t) = (splitOn sep t).rdropWhile (·.isEmpty) := by
  have hne : t.reverse.dropWhile (· == sep) ≠ [] := by simpa [dropEndWhile] using h
  have hempty : (fun l : Text => l.isEmpty) ∘ List.reverse = fun l => l.isEmpty := by
    funext l
    simp
  have htwice : (List.reverse ∘ List.reverse : Text → Text) = id := by
    funext l
    simp
  have hparts : ((splitOn sep t).map List.reverse).reverse =
      (splitOn sep t).reverse.map List.reverse := List.map_reverse.symm
  rw [dropEndWhile, splitOn_reverse, splitOn_dropWhile hne, splitOn_reverse, hparts,
    List.dropWhile_map, hempty, List.map_map, htwice, List.map_id, List.rdropWhile]

theorem rdropWhile_eq_self_iff_getLast? {α : Type} {p : α → Bool} {l : List α} :
    l.rdropWhile p = l ↔ ∀ a, l.getLast? = some a → p a = false := by
  rw [List.rdropWhile_eq_self_iff]
  constructor
  · intro h a ha
    have hne : l ≠ [] := by
      rintro rfl
      cases ha
    rw [List.getLast?_eq_some_getLast hne, Option.some.injEq] at ha
    simpa [ha] using h hne
  · intro h hne
    simp [h _ (List.getLast?_eq_some_getLast hne)]

/-! ### Line breaks around a text -/

/-- Some lines without the empty ones at their ends. -/
def stripped (ls : List Text) : List Text := (ls.dropWhile (·.isEmpty)).rdropWhile (·.isEmpty)

section

variable {ls : List Text}

theorem dropWhile_isEmpty_ne_nil (hsome : ∃ l ∈ ls, l ≠ []) : ls.dropWhile (·.isEmpty) ≠ [] := by
  obtain ⟨l, hl, hne⟩ := hsome
  intro hnone
  exact hne (by simpa using List.dropWhile_eq_nil_iff.1 hnone l hl)

theorem stripped_append_nil (hsome : ∃ l ∈ ls, l ≠ []) : stripped (ls ++ [[]]) = stripped ls := by
  have hne := dropWhile_isEmpty_ne_nil hsome
  rw [stripped, List.dropWhile_append, if_neg (by simpa using hne),
    List.rdropWhile_concat_pos _ _ _ rfl, stripped]

theorem stripped_append_line (hsome : ∃ l ∈ ls, l ≠ []) {w : Text} (hw : w ≠ []) :
    stripped (ls ++ [w]) = ls.dropWhile (·.isEmpty) ++ [w] := by
  have hne := dropWhile_isEmpty_ne_nil hsome
  rw [stripped, List.dropWhile_append, if_neg (by simpa using hne),
    List.rdropWhile_concat_neg _ _ _ (by simpa using hw)]

theorem mem_of_mem_stripped {l : Text} (hl : l ∈ stripped ls) : l ∈ ls :=
  (List.dropWhile_suffix _).subset ((List.rdropWhile_prefix _ _).subset hl)

theorem dropWhile_isEmpty_eq_self_iff : ls.dropWhile (·.isEmpty) = ls ↔ ls.head? ≠ some [] := by
  cases ls with
  | nil => simp
  | cons l ls => simp [List.dropWhile_eq_self_iff]

theorem stripped_eq_self_iff :
    stripped ls = ls ↔ ls.head? ≠ some [] ∧ ls.getLast? ≠ some [] := by
  have hlast : ls.rdropWhile (·.isEmpty) = ls ↔ ls.getLast? ≠ some [] := by
    rw [rdropWhile_eq_self_iff_getLast?]
    constructor
    · intro h hnil
      cases h [] hnil
    · rintro h (_ | ⟨c, l⟩) hl
      · exact absurd hl h
      · rfl
  constructor
  · intro h
    have hdrop : ls.dropWhile (·.isEmpty) = ls := by
      refine (List.dropWhile_suffix _).eq_of_length (Nat.le_antisymm ?_ ?_)
      · exact (List.dropWhile_suffix _).length_le
      · have hle := (List.rdropWhile_prefix (·.isEmpty) (ls.dropWhile (·.isEmpty))).length_le
        rwa [← stripped, h] at hle
    rw [stripped, hdrop] at h
    exact ⟨dropWhile_isEmpty_eq_self_iff.1 hdrop, hlast.1 h⟩
  · rintro ⟨hhead, hgetLast⟩
    rw [stripped, dropWhile_isEmpty_eq_self_iff.2 hhead, hlast.2 hgetLast]

end

/-- A text without the line breaks around it. -/
def withoutBreaks (t : Text) : Text := dropEndWhile (· == '\n') (t.dropWhile (· == '\n'))

theorem splitOn_withoutBreaks {t : Text} (h : withoutBreaks t ≠ []) :
    splitOn '\n' (withoutBreaks t) = stripped (splitOn '\n' t) := by
  have hstart : t.dropWhile (· == '\n') ≠ [] := by
    intro hnone
    rw [withoutBreaks, hnone] at h
    exact h rfl
  rw [withoutBreaks, splitOn_dropEndWhile h, splitOn_dropWhile hstart, stripped]

/-- There are only line breaks in a text without a line that is not empty. -/
theorem withoutBreaks_eq_nil_iff {t : Text} :
    withoutBreaks t = [] ↔ ∀ l ∈ splitOn '\n' t, l = [] := by
  constructor
  · intro h l hl
    have hall : ∀ c ∈ t, (c == '\n') = true := by
      intro c hc
      rw [← List.takeWhile_append_dropWhile (p := (· == '\n')) (l := t), List.mem_append] at hc
      rcases hc with hc | hc
      · simpa using List.mem_takeWhile_imp hc
      · exact List.rdropWhile_eq_nil_iff.1 h c hc
    refine List.eq_nil_iff_forall_not_mem.2 fun c hc => ?_
    have hbreak := hall c ((isInfix_of_mem_splitOn hl).subset hc)
    rw [beq_iff_eq] at hbreak
    exact not_mem_of_mem_splitOn hl (hbreak ▸ hc)
  · intro h
    by_contra hne
    have hnone : (splitOn '\n' t).dropWhile (·.isEmpty) = [] :=
      List.dropWhile_eq_nil_iff.2 fun l hl => by rw [h l hl]; rfl
    have hsplit := splitOn_withoutBreaks hne
    rw [stripped, hnone] at hsplit
    exact splitOn_ne_nil _ _ hsplit

/-! ### Patterns without blanks -/

section

variable {pattern t u : Text} (hne : pattern ≠ []) (hsolid : ∀ c ∈ pattern, isBlank c = false)

include hne hsolid

/-- A pattern without blanks is not found in the blanks before a text. -/
theorem isInfix_of_blank_append (ht : allBlank t = true) (h : pattern <:+: t ++ u) :
    pattern <:+: u := by
  have hblank : ∀ c ∈ t, c ∉ pattern := by
    intro c hc hmem
    exact ne_of_isBlank (List.all_eq_true.1 ht c hc) (hsolid c hmem) rfl
  rcases List.infix_append_iff.1 h with hin | hin | ⟨before, after, rfl, hbefore, hafter⟩
  · obtain ⟨c, rest, rfl⟩ := List.exists_cons_of_ne_nil hne
    exact absurd List.mem_cons_self (hblank c (hin.subset List.mem_cons_self))
  · exact hin
  · cases before with
    | nil => exact hafter.isInfix
    | cons c before =>
      exact absurd (by simp) (hblank c (hbefore.subset List.mem_cons_self))

/-- A pattern without blanks is not found across a blank. -/
theorem isInfix_or_of_append (hu : ∀ d, u.head? = some d → isBlank d = true)
    (h : pattern <:+: t ++ u) : pattern <:+: t ∨ pattern <:+: u := by
  rcases List.infix_append_iff.1 h with hin | hin | ⟨before, after, rfl, hbefore, hafter⟩
  · exact .inl hin
  · exact .inr hin
  · cases after with
    | nil =>
      rw [List.append_nil]
      exact .inl hbefore.isInfix
    | cons d after =>
      obtain ⟨rest, rfl⟩ := hafter
      exact absurd rfl (ne_of_isBlank (hu d rfl) (hsolid d (by simp)))

/-- A pattern without blanks is not found in the blanks after a text. -/
theorem isInfix_of_append_blank (hu : allBlank u = true) (h : pattern <:+: t ++ u) :
    pattern <:+: t := by
  have hhead : ∀ d, u.head? = some d → isBlank d = true :=
    fun d hd => List.all_eq_true.1 hu d (List.mem_of_head? hd)
  refine (isInfix_or_of_append hne hsolid hhead h).resolve_right fun hin => hne ?_
  rw [← List.append_nil u] at hin
  exact List.infix_nil.1 (isInfix_of_blank_append hne hsolid hu hin)

end

end Text

namespace Layout

open Text Token

variable {o : Options}

/-! ### The closing tag of a raw element -/

theorem isBlank_of_isNameChar {c : Char} (h : isNameChar c = true) : isBlank c = false := by
  have hcases : c.isAlpha = true ∨ c.isDigit = true ∨ c = '-' ∨ c = '_' ∨ c = ':' ∨ c = '.' := by
    simpa [isNameChar, Char.isAlphanum, or_assoc] using h
  rcases hcases with halpha | hdigit | rfl | rfl | rfl | rfl
  · exact isBlank_of_isAlpha halpha
  · have hrange : (decide (c.val ≥ '0'.val) && decide (c.val ≤ '9'.val)) = true := hdigit
    simp only [Bool.and_eq_true, decide_eq_true_eq, ge_iff_le, UInt32.le_iff_toNat_le] at hrange
    have hzero : '0'.val.toNat = 48 := rfl
    have hnine : '9'.val.toNat = 57 := rfl
    have hc : c.toNat = c.val.toNat := rfl
    simp only [isBlank]
    grind
  all_goals decide

namespace RawElement

variable {e : RawElement}

theorem closing_ne_nil (e : RawElement) : e.closing ≠ [] := by simp [closing]

theorem Named.not_isBlank (h : e.Named) : ∀ c ∈ e.closing, isBlank c = false := by
  intro c hc
  rcases List.mem_append.1 hc with hsign | hname
  · have hplain : ("</" : Text).all (!isBlank ·) = true := by decide
    simpa using List.all_eq_true.1 hplain c hsign
  · exact isBlank_of_isNameChar (h c hname)

/-- The closing tag is found where it starts, and not before. -/
theorem Named.breakOn_append (h : e.Named) {t u : Text} (ht : ¬ e.closing <:+: t)
    (hu : e.closing <+: u) : breakOn e.closing (t ++ u) = (t, u) := by
  refine breakOn_append_of_not_isPrefix hu e.closing_ne_nil fun v hv hsuffix hprefix => ht ?_
  obtain ⟨c, v, rfl⟩ := List.exists_cons_of_ne_nil hv
  have hclosing : e.closing = '<' :: '/' :: e.name := rfl
  rw [hclosing, List.cons_append, List.cons_prefix_cons] at hprefix
  obtain ⟨rfl, hbody⟩ := hprefix
  -- The sign that starts the closing tag is not found again in it.
  have hinside : '/' :: e.name <+: v := by
    refine prefix_of_prefix_append hbody fun d hd hmem => ?_
    obtain ⟨rest, rfl⟩ := hu
    rw [hclosing] at hd
    cases hd
    rcases List.mem_cons.1 hmem with hslash | hname
    · cases hslash
    · exact absurd (h _ hname) (by decide)
  have hwhole : e.closing <+: '<' :: v := by
    rw [hclosing, List.cons_prefix_cons]
    exact ⟨rfl, hinside⟩
  exact hwhole.isInfix.trans hsuffix.isInfix

end RawElement

theorem exists_mem_of_isInfix_flatten {pattern sep : Text} (hne : pattern ≠ [])
    (hsolid : ∀ c ∈ pattern, isBlank c = false) (hnil : sep ≠ []) (hsep : allBlank sep = true)
    {ls : List Text} (h : pattern <:+: (ls.map (sep ++ ·)).flatten) :
    ∃ l ∈ ls, pattern <:+: l := by
  induction ls with
  | nil => exact absurd (List.infix_nil.1 h) hne
  | cons l ls ih =>
    have hcut : ((l :: ls).map (sep ++ ·)).flatten = sep ++ (l ++ (ls.map (sep ++ ·)).flatten) := by
      simp
    rw [hcut] at h
    have hinside := isInfix_of_blank_append hne hsolid hsep h
    have hblank := head?_flatten_map hnil hsep ls
    rcases isInfix_or_of_append hne hsolid hblank hinside with hhere | hthere
    · exact ⟨l, List.mem_cons_self, hhere⟩
    · obtain ⟨l', hl', hin⟩ := ih hthere
      exact ⟨l', List.mem_cons_of_mem _ hl', hin⟩

/-! ### Indentation -/

/-- A line without its first bytes, or without its leading blanks if they end inside a character. -/
def cut (common : Nat) (l : Text) : Text := (dropBytes? common l).getD (trimStart l)

theorem reindent_eq (indent : Text) (common : Nat) (l : Text) :
    reindent indent common l = if allBlank l then [] else indent ++ cut common l := rfl

theorem cut_isSuffix (common : Nat) (l : Text) : cut common l <:+ l := by
  unfold cut
  cases h : dropBytes? common l with
  | none => exact List.dropWhile_suffix _
  | some rest => exact isSuffix_of_dropBytes? h

theorem allBlank_reindent {indent l : Text} {common : Nat} (hindent : allBlank indent = true)
    (hcommon : allBlank l = false → common ≤ leading l) :
    allBlank (reindent indent common l) = allBlank l := by
  have hsolid := solid_reindent (solid_eq_nil_iff.2 hindent) hcommon
  rw [Bool.eq_iff_iff, ← solid_eq_nil_iff, ← solid_eq_nil_iff, hsolid]

theorem leading_append {w : Text} (hw : allBlank w = true) (l : Text) :
    leading (w ++ l) = size w + leading l := by
  rw [leading, List.takeWhile_append_of_pos (List.all_eq_true.1 hw), size_append, leading]

/-- A line with all of its indentation cut off. -/
theorem cut_leading (l : Text) : cut (leading l) l = trimStart l := by
  have hwhole : l.takeWhile isBlank ++ trimStart l = l := List.takeWhile_append_dropWhile
  have hdrop := dropBytes?_size (l.takeWhile isBlank) (trimStart l)
  rw [hwhole] at hdrop
  rw [cut, leading, hdrop]
  rfl

theorem leading_trimStart (l : Text) : leading (trimStart l) = 0 := by
  have hnone : (trimStart l).takeWhile isBlank = [] := by
    rw [List.takeWhile_eq_nil_iff]
    intro hpos
    have hfirst := List.head?_dropWhile_not isBlank l
    rw [← trimStart, List.head?_eq_getElem?, List.getElem?_eq_getElem hpos] at hfirst
    simpa using hfirst
  rw [leading, hnone, size_nil]

/-- The lines that are not blank. -/
def solidLines (body : List Text) : List Text := body.filter (!allBlank ·)

theorem commonIndent_eq (body : List Text) :
    commonIndent body = (((solidLines body).map leading).min?).getD 0 := rfl

theorem solidLines_ne_nil {body : List Text} (h : body.all allBlank = false) :
    solidLines body ≠ [] := by
  obtain ⟨l, hl, hsolid⟩ := List.all_eq_false.1 h
  exact List.ne_nil_of_mem (List.mem_filter.2 ⟨hl, by simpa using hsolid⟩)

/-- Some line has no more than the common indentation. -/
theorem exists_leading_eq {body : List Text} (h : body.all allBlank = false) :
    ∃ l ∈ solidLines body, leading l = commonIndent body := by
  cases hmin : ((solidLines body).map leading).min? with
  | none =>
    rw [List.min?_eq_none_iff, List.map_eq_nil_iff] at hmin
    exact absurd hmin (solidLines_ne_nil h)
  | some least =>
    obtain ⟨l, hl, hleast⟩ := List.mem_map.1 (List.min?_mem hmin)
    exact ⟨l, hl, by rw [commonIndent_eq, hmin, hleast]; rfl⟩

theorem commonIndent_of_leading {body : List Text} {n : Nat}
    (hsome : ∃ l ∈ solidLines body, leading l = n) (hle : ∀ l ∈ solidLines body, n ≤ leading l) :
    commonIndent body = n := by
  have hmin : ((solidLines body).map leading).min? = some n := by
    rw [List.min?_eq_some_iff]
    constructor
    · obtain ⟨l, hl, hleading⟩ := hsome
      exact List.mem_map.2 ⟨l, hl, hleading⟩
    · intro m hm
      obtain ⟨l, hl, rfl⟩ := List.mem_map.1 hm
      exact hle l hl
  rw [commonIndent_eq, hmin]
  rfl

theorem solidLines_map {f : Text → Text} {body : List Text}
    (hf : ∀ l ∈ body, allBlank (f l) = allBlank l) :
    solidLines (body.map f) = (solidLines body).map f := by
  rw [solidLines, List.filter_map]
  congr 1
  exact List.filter_congr fun l hl => by rw [Function.comp_apply, hf l hl]

theorem solidLines_map_reindent {indent : Text} (hindent : allBlank indent = true)
    (body : List Text) :
    solidLines (body.map (reindent indent (commonIndent body))) =
      (solidLines body).map (reindent indent (commonIndent body)) :=
  solidLines_map fun _ hl => allBlank_reindent hindent (commonIndent_le hl)

theorem not_allBlank_of_mem_solidLines {body : List Text} {l : Text} (hl : l ∈ solidLines body) :
    ¬ allBlank l = true := by simpa using (List.mem_filter.1 hl).2

/-- Lines that were indented anew have just that indentation in common. -/
theorem commonIndent_map_reindent {indent : Text} (hindent : allBlank indent = true)
    {body : List Text} (h : body.all allBlank = false) :
    commonIndent (body.map (reindent indent (commonIndent body))) = size indent := by
  have hline {l : Text} (hl : l ∈ solidLines body) :
      leading (reindent indent (commonIndent body) l) =
        size indent + leading (cut (commonIndent body) l) := by
    rw [reindent_eq, if_neg (not_allBlank_of_mem_solidLines hl), leading_append hindent]
  apply commonIndent_of_leading
  · obtain ⟨l, hl, hleast⟩ := exists_leading_eq h
    rw [solidLines_map_reindent hindent]
    refine ⟨_, List.mem_map_of_mem hl, ?_⟩
    rw [hline hl, ← hleast, cut_leading, leading_trimStart, Nat.add_zero]
  · intro l hl
    rw [solidLines_map_reindent hindent] at hl
    obtain ⟨line, hmem, rfl⟩ := List.mem_map.1 hl
    rw [hline hmem]
    omega

theorem reindent_reindent {indent : Text} (hindent : allBlank indent = true) {common : Nat}
    {l : Text} (hcommon : allBlank l = false → common ≤ leading l) :
    reindent indent (size indent) (reindent indent common l) = reindent indent common l := by
  rw [reindent_eq indent (size indent), allBlank_reindent hindent hcommon, reindent_eq]
  by_cases hblank : allBlank l = true
  · rw [if_pos hblank, if_pos hblank]
  · rw [if_neg hblank, if_neg hblank, cut, dropBytes?_size]
    rfl

/-! ### Rows -/

/-- How a line of a raw content is laid out at some level. -/
def relined (o : Options) (level : Nat) (script : Bool) (common : Nat) : Text → Text :=
  match (if script then o.indentScripts else .keep) with
  | .keep => id
  | .separate => reindent [] common
  | .normal => reindent (o.indent level) common

/-- The lines of a raw content as they are laid out at some level: none, if all are blank. -/
def rawRows (o : Options) (level : Nat) (script : Bool) (body : List Text) : List Text :=
  if body.all allBlank then [] else body.map (relined o level script (commonIndent body))

theorem rawLines_of_begun {s : State} (hs : s.begun = true) (content : Text) (script : Bool) :
    rawLines o s content script = (rawRows o s.level script (rawBody content), s) := by
  have hstate : { s with begun := true } = s := by rw [← hs]
  unfold rawLines rawRows relined
  simp only [hstate]
  split
  · rfl
  · cases (if script = true then o.indentScripts else .keep) with
    | keep => rw [List.map_id]
    | separate | normal => rfl

theorem rawRows_of_blank {body : List Text} (h : body.all allBlank = true) (level : Nat)
    (script : Bool) : rawRows o level script body = [] := if_pos h

/-- A line is kept, or it is indented anew. -/
theorem relined_cases (ho : o.Plain) (level : Nat) (script : Bool) :
    (∀ common, relined o level script common = id) ∨
      ∃ indent, allBlank indent = true ∧ '\n' ∉ indent ∧
        ∀ common, relined o level script common = reindent indent common := by
  unfold relined
  split
  · exact .inl fun _ => rfl
  · exact .inr ⟨[], rfl, by simp, fun _ => rfl⟩
  · exact .inr ⟨o.indent level, ho.allBlank_indent level, ho.not_mem_indent level, fun _ => rfl⟩

/-- Lines that were laid out stay as they are, with or without blank lines among them. -/
theorem relined_of_mem_rawRows (ho : o.Plain) {level : Nat} {script : Bool} {body body' : List Text}
    (hbody' : solidLines body' = solidLines (rawRows o level script body)) {l : Text}
    (hl : l ∈ rawRows o level script body) :
    relined o level script (commonIndent body') l = l := by
  unfold rawRows at hl hbody'
  split at hl
  · cases hl
  · rename_i hsome
    rw [if_neg hsome] at hbody'
    rcases relined_cases ho level script with hkeep | ⟨indent, hindent, -, hreindent⟩
    · rw [hkeep]
      rfl
    · rw [hreindent] at hl hbody' ⊢
      obtain ⟨line, hline, rfl⟩ := List.mem_map.1 hl
      have hcommon : commonIndent body' = size indent := by
        rw [commonIndent_eq, hbody', ← commonIndent_eq,
          commonIndent_map_reindent hindent (by simpa using hsome)]
      rw [hcommon, reindent_reindent hindent (commonIndent_le hline)]

theorem rawBody_eq (content : Text) :
    rawBody content =
      (splitOn '\n' (withoutBreaks content)).map (dropEndWhile (· == '\r')) := rfl

theorem isInfix_of_mem_rawBody {content l : Text} (hl : l ∈ rawBody content) : l <:+: content := by
  obtain ⟨part, hpart, rfl⟩ := List.mem_map.1 hl
  have hend : dropEndWhile (· == '\r') part <+: part := List.rdropWhile_prefix _ part
  have hstrip : dropEndWhile (· == '\n') (content.dropWhile (· == '\n')) <:+: content :=
    (List.rdropWhile_prefix _ _).isInfix.trans (List.dropWhile_suffix _).isInfix
  exact hend.isInfix.trans ((isInfix_of_mem_splitOn hpart).trans hstrip)

theorem allBlank_rawBody {content : Text} (h : allBlank content = true) :
    (rawBody content).all allBlank = true := by
  refine List.all_eq_true.2 fun l hl => List.all_eq_true.2 fun c hc => ?_
  exact List.all_eq_true.1 h c ((isInfix_of_mem_rawBody hl).subset hc)

/-- A text that is one line, without a carriage return at its end. -/
structure IsLine (l : Text) : Prop where
  noBreak : '\n' ∉ l
  noReturn : dropEndWhile (· == '\r') l = l

/-- A line that was laid out is a blank one, or indentation and the end of a line. -/
theorem exists_of_mem_rawRows (ho : o.Plain) {level : Nat} {script : Bool} {body : List Text}
    {l : Text} (hl : l ∈ rawRows o level script body) :
    l = [] ∨ ∃ indent rest, l = indent ++ rest ∧ allBlank indent = true ∧ '\n' ∉ indent ∧
      rest ≠ [] ∧ ∃ line ∈ body, rest <:+ line := by
  unfold rawRows at hl
  split at hl
  · cases hl
  · obtain ⟨line, hline, rfl⟩ := List.mem_map.1 hl
    rcases relined_cases ho level script with hkeep | ⟨indent, hindent, hbreak, hreindent⟩
    · rw [hkeep]
      by_cases hnil : line = []
      · exact .inl hnil
      · exact .inr ⟨[], line, rfl, rfl, by simp, hnil, line, hline, List.suffix_rfl⟩
    · rw [hreindent, reindent_eq]
      by_cases hblank : allBlank line = true
      · exact .inl (if_pos hblank)
      · have hsolid : allBlank (reindent [] (commonIndent body) line) = allBlank line :=
          allBlank_reindent rfl (commonIndent_le hline)
        rw [reindent_eq, if_neg hblank, List.nil_append] at hsolid
        rw [if_neg hblank]
        refine .inr ⟨indent, _, rfl, hindent, hbreak, ?_, line, hline, cut_isSuffix _ _⟩
        intro hnil
        rw [hnil] at hsolid
        exact hblank hsolid.symm

section

variable {level : Nat} {script : Bool} {content l : Text}

theorem isLine_of_mem_rawBody (hl : l ∈ rawBody content) : IsLine l := by
  obtain ⟨part, hpart, rfl⟩ := List.mem_map.1 hl
  refine ⟨fun hmem => ?_, List.rdropWhile_idempotent _ part⟩
  exact not_mem_of_mem_splitOn hpart ((List.rdropWhile_prefix _ part).subset hmem)

theorem isLine_of_mem_rawRows (ho : o.Plain) (hl : l ∈ rawRows o level script (rawBody content)) :
    IsLine l := by
  rcases exists_of_mem_rawRows ho hl with
    rfl | ⟨indent, rest, rfl, -, hindent, hne, line, hline, before, rfl⟩
  · exact ⟨by simp, rfl⟩
  · obtain ⟨hbreak, hreturn⟩ := isLine_of_mem_rawBody hline
    refine ⟨by simp_all, ?_⟩
    -- The end of a line is that of the line it comes from.
    have hlast := rdropWhile_eq_self_iff_getLast?.1 hreturn
    refine rdropWhile_eq_self_iff_getLast?.2 ?_
    rwa [List.getLast?_append_of_ne_nil _ hne] at hlast ⊢

theorem isInfix_of_mem_rawRows (ho : o.Plain) {pattern : Text} (hne : pattern ≠ [])
    (hsolid : ∀ c ∈ pattern, isBlank c = false)
    (hl : l ∈ rawRows o level script (rawBody content)) (h : pattern <:+: l) :
    pattern <:+: content := by
  rcases exists_of_mem_rawRows ho hl with
    rfl | ⟨indent, rest, rfl, hindent, -, -, line, hline, hrest⟩
  · exact absurd (List.infix_nil.1 h) hne
  · have hin := isInfix_of_blank_append hne hsolid hindent h
    exact hin.trans (hrest.isInfix.trans (isInfix_of_mem_rawBody hline))

/-- No closing tag comes about in a raw content that was laid out, with blanks after it. -/
theorem not_isInfix_rows (ho : o.Plain) {e : RawElement} (he : e.Named)
    (hcontent : ¬ e.closing <:+: content) {w : Text} (hw : allBlank w = true) :
    ¬ e.closing <:+: written o true (rawRows o level script (rawBody content)) ++ w := by
  intro hin
  have hrows := isInfix_of_append_blank e.closing_ne_nil he.not_isBlank hw hin
  obtain ⟨l, hl, hin⟩ := exists_mem_of_isInfix_flatten e.closing_ne_nil he.not_isBlank
    ho.eol_ne_nil ho.allBlank_eol hrows
  exact hcontent (isInfix_of_mem_rawRows ho e.closing_ne_nil he.not_isBlank hl hin)

end

/-! ### Lines that are read again -/

section

variable {ls : List Text}

theorem splitOn_written (heol : o.eol = "\n") (hls : ∀ l ∈ ls, '\n' ∉ l) :
    splitOn '\n' (written o true ls) = [] :: ls := by
  have hjoin : written o true ls = join ['\n'] ([] :: ls) := by
    rw [join_cons_eq, written, if_pos rfl, heol]
    rfl
  rw [hjoin, splitOn_join (by simp) (List.forall_mem_cons.2 ⟨by simp, hls⟩)]

theorem written_true_inj (heol : o.eol = "\n") {ls' : List Text} (hls : ∀ l ∈ ls, '\n' ∉ l)
    (hls' : ∀ l ∈ ls', '\n' ∉ l) (h : written o true ls = written o true ls') : ls = ls' := by
  have hsplit := congrArg (splitOn '\n') h
  rw [splitOn_written heol hls, splitOn_written heol hls'] at hsplit
  exact List.tail_eq_of_cons_eq hsplit

/-- The lines of a raw content that was written line by line. -/
theorem rawBody_written (heol : o.eol = "\n") (hsome : ∃ l ∈ ls, l ≠ [])
    (hls : ∀ l ∈ ls, IsLine l) : rawBody (written o true ls) = stripped ls := by
  have hsplit := splitOn_written heol fun l hl => (hls l hl).noBreak
  have hne : withoutBreaks (written o true ls) ≠ [] := by
    rw [ne_eq, withoutBreaks_eq_nil_iff, hsplit]
    obtain ⟨l, hl, hne⟩ := hsome
    exact fun hnone => hne (hnone l (List.mem_cons_of_mem _ hl))
  have hlines : ∀ l ∈ stripped ls, dropEndWhile (· == '\r') l = id l :=
    fun l hl => (hls l (mem_of_mem_stripped hl)).noReturn
  have hrows : stripped ([] :: ls) = stripped ls := rfl
  rw [rawBody_eq, splitOn_withoutBreaks hne, hsplit, hrows, List.map_congr_left hlines, List.map_id]

theorem solidLines_eq_nil_iff : solidLines ls = [] ↔ ls.all allBlank = true := by
  simp [solidLines, List.filter_eq_nil_iff]

theorem solidLines_append (ls ls' : List Text) :
    solidLines (ls ++ ls') = solidLines ls ++ solidLines ls' := List.filter_append ..

theorem solidLines_dropWhile (ls : List Text) :
    solidLines (ls.dropWhile (·.isEmpty)) = solidLines ls := by
  induction ls with
  | nil => rfl
  | cons l ls ih =>
    cases l with
    | nil => exact ih
    | cons c l => rfl

theorem solidLines_stripped (ls : List Text) : solidLines (stripped ls) = solidLines ls := by
  have hreverse (ls : List Text) : solidLines ls.reverse = (solidLines ls).reverse :=
    List.filter_reverse ..
  rw [stripped, List.rdropWhile, hreverse, solidLines_dropWhile, hreverse, solidLines_dropWhile,
    List.reverse_reverse]

end

section

variable {level : Nat} {script : Bool} {content : Text}

theorem solidLines_rawRows_ne_nil (ho : o.Plain) {body : List Text}
    (h : rawRows o level script body ≠ []) : solidLines (rawRows o level script body) ≠ [] := by
  unfold rawRows at h ⊢
  split
  · rename_i hblank
    exact absurd (if_pos hblank) h
  · rename_i hsolid
    rw [Bool.not_eq_true] at hsolid
    have hne := solidLines_ne_nil hsolid
    rcases relined_cases ho level script with hkeep | ⟨indent, hindent, -, hreindent⟩
    · rwa [hkeep, List.map_id]
    · rw [hreindent, solidLines_map_reindent hindent]
      simpa using hne

theorem exists_ne_nil_of_rawRows (ho : o.Plain) {body : List Text}
    (h : rawRows o level script body ≠ []) : ∃ l ∈ rawRows o level script body, l ≠ [] := by
  obtain ⟨l, hl⟩ := List.exists_mem_of_ne_nil _ (solidLines_rawRows_ne_nil ho h)
  obtain ⟨hmem, hsolid⟩ := List.mem_filter.1 hl
  refine ⟨l, hmem, ?_⟩
  rintro rfl
  cases hsolid

/-- Lines that were laid out, with other blank lines among them, are laid out one by one. -/
theorem rawRows_of_solidLines_eq (ho : o.Plain) {body body' : List Text}
    (hne : rawRows o level script body ≠ [])
    (hbody' : solidLines body' = solidLines (rawRows o level script body)) :
    rawRows o level script body' =
      body'.map (relined o level script (commonIndent body')) := by
  have hsolid := solidLines_rawRows_ne_nil ho hne
  rw [← hbody', ne_eq, solidLines_eq_nil_iff] at hsolid
  exact if_neg hsolid

theorem rawBody_rows_append (ho : o.Plain) (heol : o.eol = "\n")
    (hne : rawRows o level script (rawBody content) ≠ []) {more : List Text}
    (hmore : ∀ l ∈ more, IsLine l) :
    rawBody (written o true (rawRows o level script (rawBody content) ++ more)) =
      stripped (rawRows o level script (rawBody content) ++ more) := by
  obtain ⟨l, hl, hnil⟩ := exists_ne_nil_of_rawRows ho hne
  refine rawBody_written heol ⟨l, List.mem_append_left _ hl, hnil⟩ ?_
  exact List.forall_mem_append.2 ⟨fun l => isLine_of_mem_rawRows ho, hmore⟩

/-- Lines that were laid out, up to an empty line or nothing, are read again and laid out as they
are, except for the empty ones at their ends. -/
theorem rawRows_written (ho : o.Plain) (heol : o.eol = "\n")
    (hne : rawRows o level script (rawBody content) ≠ []) {more : List Text}
    (hmore : more = [] ∨ more = [[]]) :
    rawRows o level script
        (rawBody (written o true (rawRows o level script (rawBody content) ++ more))) =
      stripped (rawRows o level script (rawBody content)) := by
  have hbody : rawBody (written o true (rawRows o level script (rawBody content) ++ more)) =
      stripped (rawRows o level script (rawBody content)) := by
    rcases hmore with rfl | rfl
    · rw [rawBody_rows_append ho heol hne (by simp), List.append_nil]
    · have hnil : IsLine [] := ⟨by simp, rfl⟩
      rw [rawBody_rows_append ho heol hne (by simpa using hnil),
        stripped_append_nil (exists_ne_nil_of_rawRows ho hne)]
  have hsolid := solidLines_stripped (rawRows o level script (rawBody content))
  have hlines : ∀ l ∈ stripped (rawRows o level script (rawBody content)), relined o level script
      (commonIndent (stripped (rawRows o level script (rawBody content)))) l = id l :=
    fun l hl => relined_of_mem_rawRows ho hsolid (mem_of_mem_stripped hl)
  rw [hbody, rawRows_of_solidLines_eq ho hne hsolid, List.map_congr_left hlines, List.map_id]

/-- Indentation before the closing tag is read as one more line. -/
theorem rawRows_written_ne (ho : o.Plain) (heol : o.eol = "\n")
    (hne : rawRows o level script (rawBody content) ≠ []) {w : Text} (hnil : w ≠ [])
    (hblank : allBlank w = true) (hw : IsLine w) :
    rawRows o level script
        (rawBody (written o true (rawRows o level script (rawBody content) ++ [w]))) ≠
      rawRows o level script (rawBody content) := by
  have hsome := exists_ne_nil_of_rawRows ho hne
  have hsolid : solidLines ((rawRows o level script (rawBody content)).dropWhile (·.isEmpty) ++
      [w]) = solidLines (rawRows o level script (rawBody content)) := by
    have hone : solidLines [w] = [] := solidLines_eq_nil_iff.2 (by simpa using hblank)
    rw [solidLines_append, solidLines_dropWhile, hone, List.append_nil]
  rw [rawBody_rows_append ho heol hne (by simpa using hw), stripped_append_line hsome hnil,
    rawRows_of_solidLines_eq ho hne hsolid, List.map_append]
  intro hsame
  have hfirst : (rawRows o level script (rawBody content)).head? ≠ some [] := by
    obtain ⟨l, later, hl⟩ := List.exists_cons_of_ne_nil (dropWhile_isEmpty_ne_nil hsome)
    have hfirst := List.head?_dropWhile_not (·.isEmpty) (rawRows o level script (rawBody content))
    have hmem : l ∈ rawRows o level script (rawBody content) :=
      (List.dropWhile_suffix _).subset (hl ▸ List.mem_cons_self)
    rw [hl] at hfirst hsame hsolid
    rw [← hsame, List.map_cons, relined_of_mem_rawRows ho hsolid hmem]
    rintro ⟨⟩
    simp at hfirst
  have hlength := congrArg List.length hsame
  rw [dropWhile_isEmpty_eq_self_iff.2 hfirst] at hlength
  simp at hlength

end

end Layout

end Wxml
