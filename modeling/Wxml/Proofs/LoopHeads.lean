import Wxml.Proofs.LoopPattern
import Wxml.Proofs.Translatable

/-!
# The grammar of loop heads

`Loop.Head l t` says that a text is written as the head of the loop `l`: its names, `in` or `of`,
and what it runs through, with blanks between them and around the whole.  The names may themselves
be `in` or `of`, and what the loop runs through may hold these words.

`Rendering.loop_ok_iff_head` says that the heads are exactly the texts that are taken as loops, and
that no text is the head of two.  Each step of `Loop.scan?` has one exact description, in which the
text is put together from what was read and the rest; `Loop.parse?_eq_scan?` brings it to the
pattern.  What makes them fit is that blanks, word characters and the marks of a head are apart
(`isIdentifierChar_of_isBlank`).
-/

namespace Wxml

/-! ### Blanks -/

namespace Text

/-- A text after the blanks it starts with. -/
theorem trimStart_eq_iff {t rest : Text} :
    trimStart t = rest ↔
      (∃ gap, allBlank gap = true ∧ t = gap ++ rest) ∧
        ∀ c, rest.head? = some c → isBlank c = false := by
  constructor
  · rintro rfl
    refine ⟨⟨t.takeWhile isBlank, List.all_takeWhile, ?_⟩, fun c => isBlank_of_head?_dropWhile⟩
    exact List.takeWhile_append_dropWhile.symm
  · rintro ⟨⟨gap, hgap, rfl⟩, hrest⟩
    exact dropWhile_append_stop (List.all_eq_true.1 hgap) hrest

/-- A text that does not start with a blank is trimmed at its end only. -/
theorem trimEnd_eq_trim {t : Text} (h : ∀ c, t.head? = some c → isBlank c = false) :
    trimEnd t = trim t := by
  have hstart : trimStart t = t := trimStart_eq_iff.2 ⟨⟨[], rfl, rfl⟩, h⟩
  rw [trim, hstart]

end Text

/-! ### Identifiers -/

namespace Expression

/-- The first character of an identifier. -/
theorem exists_head_of_isIdentifier {name : Text} (h : isIdentifier name = true) :
    ∃ c t, name = c :: t ∧ isIdentifierHead c = true := by
  cases name with
  | nil =>
    rw [isIdentifier_nil] at h
    cases h
  | cons c t =>
    rw [isIdentifier_cons, Bool.and_eq_true] at h
    exact ⟨c, t, rfl, h.1⟩

/-- An identifier is read as far as it goes. -/
theorem identifier?_eq_some_iff {t name rest : Text} :
    identifier? t = some (name, rest) ↔
      isIdentifier name = true ∧ t = name ++ rest ∧
        ∀ c, rest.head? = some c → isIdentifierChar c = false := by
  constructor
  · intro h
    cases t with
    | nil => cases h
    | cons d t =>
      rw [identifier?] at h
      split at h
      · rename_i hhead
        cases h
        refine ⟨?_, ?_, fun c hc => ?_⟩
        · rw [isIdentifier_cons, hhead, Bool.true_and]
          exact List.all_takeWhile
        · rw [List.cons_append, List.takeWhile_append_dropWhile]
        · have hstop := List.head?_dropWhile_not isIdentifierChar t
          rwa [hc] at hstop
      · cases h
  · rintro ⟨hname, rfl, hrest⟩
    cases name with
    | nil =>
      rw [isIdentifier_nil] at hname
      cases hname
    | cons d name =>
      rw [isIdentifier_cons, Bool.and_eq_true] at hname
      have hchars := List.all_eq_true.1 hname.2
      rw [List.cons_append, identifier?, if_pos hname.1, Text.takeWhile_append_stop hchars hrest,
        Text.dropWhile_append_stop hchars hrest]

end Expression

/-! ### The grammar -/

namespace Loop

open Expression

/-- The names of a loop as they are written: the item alone, or in parentheses the item, and the
index after a comma if there is one. -/
inductive Names : Text → Option Text → Text → Prop
  | bare {item : Text} (itemName : isIdentifier item = true) : Names item none item
  | enclosed {item a b : Text} (itemName : isIdentifier item = true)
      (blankA : Text.allBlank a = true) (blankB : Text.allBlank b = true) :
      Names item none ('(' :: (a ++ (item ++ (b ++ [')']))))
  | indexed {item index a b c d : Text} (itemName : isIdentifier item = true)
      (indexName : isIdentifier index = true) (blankA : Text.allBlank a = true)
      (blankB : Text.allBlank b = true) (blankC : Text.allBlank c = true)
      (blankD : Text.allBlank d = true) :
      Names item (some index)
        ('(' :: (a ++ (item ++ (b ++ ',' :: (c ++ (index ++ (d ++ [')'])))))))

/-- What a loop can run through: an expression on one line, without blanks around it or a filter in
it. -/
structure IsSource (source : Text) : Prop where
  notEmpty : source ≠ []
  trimmed : source.Trimmed
  oneLine : '\n' ∉ source
  noFilter : ¬ HasFilter source

/-- A text is written as the head of a loop. -/
inductive Head : Loop → Text → Prop
  | mk {item written before gap word gap' source after : Text} {index : Option Text}
      (names : Names item index written) (isSource : IsSource source)
      (keyword : word = ("in" : Text) ∨ word = ("of" : Text))
      (notEmptyGap : gap ≠ []) (notEmptyGap' : gap' ≠ [])
      (blankBefore : Text.allBlank before = true) (blankGap : Text.allBlank gap = true)
      (blankGap' : Text.allBlank gap' = true) (blankAfter : Text.allBlank after = true) :
      Head ⟨item, index, source⟩
        (before ++ (written ++ (gap ++ (word ++ (gap' ++ (source ++ after))))))

/-! ### The steps of reading a head -/

theorem blanks?_eq_some_iff {t rest : Text} :
    blanks? t = some rest ↔
      (∃ gap, gap ≠ [] ∧ Text.allBlank gap = true ∧ t = gap ++ rest) ∧
        ∀ c, rest.head? = some c → isBlank c = false := by
  constructor
  · intro h
    cases t with
    | nil => cases h
    | cons d t =>
      rw [blanks?] at h
      split at h
      · rename_i hblank
        obtain ⟨⟨gap, hgap, ht⟩, hrest⟩ := Text.trimStart_eq_iff.1 (Option.some.inj h)
        refine ⟨⟨d :: gap, by simp, ?_, by rw [ht, List.cons_append]⟩, hrest⟩
        simpa [Text.allBlank, hblank] using hgap
      · cases h
  · rintro ⟨⟨gap, hne, hgap, rfl⟩, hrest⟩
    cases gap with
    | nil => exact absurd rfl hne
    | cons d gap =>
      simp only [Text.allBlank, List.all_cons, Bool.and_eq_true] at hgap
      rw [List.cons_append, blanks?, if_pos hgap.1]
      exact congrArg some (Text.trimStart_eq_iff.2 ⟨⟨gap, hgap.2, rfl⟩, hrest⟩)

theorem keyword?_eq_some_iff {t rest : Text} :
    keyword? t = some rest ↔
      ∃ word, (word = ("in" : Text) ∨ word = ("of" : Text)) ∧ t = word ++ rest := by
  constructor
  · intro h
    unfold keyword? at h
    split at h
    · cases h
      exact ⟨"in", .inl rfl, rfl⟩
    · cases h
      exact ⟨"of", .inr rfl, rfl⟩
    · cases h
  · rintro ⟨word, rfl | rfl, rfl⟩
    · rfl
    · rfl

section

variable {mark : Char} (hblank : isBlank mark = false) (hchar : isIdentifierChar mark = false)

include hblank hchar

/-- A name between blanks is read up to the mark after it. -/
theorem identifier?_before_mark_iff {t name rest : Text} :
    (∃ u, identifier? (Text.trimStart t) = some (name, u) ∧ Text.trimStart u = mark :: rest) ↔
      isIdentifier name = true ∧ ∃ a b, Text.allBlank a = true ∧ Text.allBlank b = true ∧
        t = a ++ (name ++ (b ++ mark :: rest)) := by
  constructor
  · rintro ⟨u, hname, hu⟩
    obtain ⟨hidentifier, ht, -⟩ := identifier?_eq_some_iff.1 hname
    obtain ⟨⟨a, ha, rfl⟩, -⟩ := Text.trimStart_eq_iff.1 ht
    obtain ⟨⟨b, hb, rfl⟩, -⟩ := Text.trimStart_eq_iff.1 hu
    exact ⟨hidentifier, a, b, ha, hb, rfl⟩
  · rintro ⟨hidentifier, a, b, ha, hb, rfl⟩
    have hstop : ∀ c, (b ++ mark :: rest).head? = some c → isIdentifierChar c = false := by
      cases b with
      | nil => exact Text.forall_head?_cons hchar
      | cons d b =>
        simp only [Text.allBlank, List.all_cons, Bool.and_eq_true] at hb
        exact Text.forall_head?_cons (isIdentifierChar_of_isBlank hb.1)
    have hstart : ∀ c, (name ++ (b ++ mark :: rest)).head? = some c → isBlank c = false := by
      obtain ⟨d, name, rfl, hhead⟩ := exists_head_of_isIdentifier hidentifier
      exact Text.forall_head?_cons (isIdentifierHead_not hhead).1
    refine ⟨b ++ mark :: rest, ?_, ?_⟩
    · rw [Text.trimStart_eq_iff.2 ⟨⟨a, ha, rfl⟩, hstart⟩]
      exact identifier?_eq_some_iff.2 ⟨hidentifier, rfl, hstop⟩
    · exact Text.trimStart_eq_iff.2 ⟨⟨b, hb, rfl⟩, Text.forall_head?_cons hblank⟩

end

/-- The index of a loop and the parenthesis after it. -/
theorem index?_eq_some_iff {t index rest : Text} :
    index? t = some (index, rest) ↔
      isIdentifier index = true ∧ ∃ a b, Text.allBlank a = true ∧ Text.allBlank b = true ∧
        t = a ++ (index ++ (b ++ ')' :: rest)) := by
  rw [← identifier?_before_mark_iff (by decide) (by decide), index?]
  constructor
  · intro h
    split at h
    · cases h
    · rename_i name u hname
      split at h
      · rename_i v hv
        cases h
        exact ⟨u, hname, hv⟩
      · cases h
  · rintro ⟨u, hname, hu⟩
    simp only [hname, hu]

/-- The names in parentheses, after the first of these. -/
theorem parenthesised?_eq_some_iff {t item rest : Text} {index : Option Text} :
    parenthesised? t = some (item, index, rest) ↔
      ∃ written, Names item index ('(' :: written) ∧ t = written ++ rest := by
  have hclose : isBlank ')' = false ∧ isIdentifierChar ')' = false := by decide
  have hcomma : isBlank ',' = false ∧ isIdentifierChar ',' = false := by decide
  constructor
  · intro h
    unfold parenthesised? at h
    split at h
    · cases h
    · rename_i first u hfirst
      split at h
      · rename_i v hv
        cases h
        obtain ⟨hitem, a, b, ha, hb, rfl⟩ :=
          (identifier?_before_mark_iff hclose.1 hclose.2).1 ⟨u, hfirst, hv⟩
        exact ⟨_, .enclosed hitem ha hb, by simp⟩
      · rename_i v hv
        obtain ⟨hitem, a, b, ha, hb, rfl⟩ :=
          (identifier?_before_mark_iff hcomma.1 hcomma.2).1 ⟨u, hfirst, hv⟩
        obtain ⟨⟨second, w⟩, hsecond, hfound⟩ := Option.map_eq_some_iff.1 h
        cases hfound
        obtain ⟨hindex, c, d, hc, hd, rfl⟩ := index?_eq_some_iff.1 hsecond
        exact ⟨_, .indexed hitem hindex ha hb hc hd, by simp⟩
      · cases h
  · rintro ⟨written, hnames, rfl⟩
    cases hnames with
    | bare hitem =>
      obtain ⟨c, name, hname, hhead⟩ := exists_head_of_isIdentifier hitem
      exact absurd (List.cons.inj hname).1.symm (isIdentifierHead_not hhead).2
    | @enclosed a b hitem ha hb =>
      obtain ⟨u, hfirst, hu⟩ := (identifier?_before_mark_iff hclose.1 hclose.2).2
        ⟨hitem, a, b, ha, hb, (rfl : a ++ (item ++ (b ++ ')' :: rest)) = _)⟩
      have htext : a ++ (item ++ (b ++ [')'])) ++ rest = a ++ (item ++ (b ++ ')' :: rest)) := by
        simp
      rw [htext, parenthesised?, hfirst]
      simp only [hu]
    | @indexed i a b c d hitem hindex ha hb hc hd =>
      obtain ⟨u, hfirst, hu⟩ := (identifier?_before_mark_iff hcomma.1 hcomma.2).2
        ⟨hitem, a, b, ha, hb,
          (rfl : a ++ (item ++ (b ++ ',' :: (c ++ (i ++ (d ++ ')' :: rest))))) = _)⟩
      have hsecond : index? (c ++ (i ++ (d ++ ')' :: rest))) = some (i, rest) :=
        index?_eq_some_iff.2 ⟨hindex, c, d, hc, hd, rfl⟩
      have htext : a ++ (item ++ (b ++ ',' :: (c ++ (i ++ (d ++ [')']))))) ++ rest =
          a ++ (item ++ (b ++ ',' :: (c ++ (i ++ (d ++ ')' :: rest))))) := by simp
      rw [htext, parenthesised?, hfirst]
      simp only [hu, hsecond, Option.map_some]

/-- The names before a blank. -/
theorem names?_eq_some_iff {t item rest : Text} {index : Option Text} {c : Char}
    (hrest : rest.head? = some c) (hc : isBlank c = true) :
    names? t = some (item, index, rest) ↔
      ∃ written, Names item index written ∧ t = written ++ rest := by
  constructor
  · intro h
    unfold names? at h
    split at h
    · obtain ⟨written, hnames, rfl⟩ := parenthesised?_eq_some_iff.1 h
      exact ⟨'(' :: written, hnames, rfl⟩
    · obtain ⟨⟨name, after⟩, hname, hsame⟩ := Option.map_eq_some_iff.1 h
      cases hsame
      obtain ⟨hitem, rfl, -⟩ := identifier?_eq_some_iff.1 hname
      exact ⟨item, .bare hitem, rfl⟩
  · rintro ⟨written, hnames, rfl⟩
    cases hnames with
    | bare hitem =>
      have hread : identifier? (item ++ rest) = some (item, rest) := by
        refine identifier?_eq_some_iff.2 ⟨hitem, rfl, fun d hd => ?_⟩
        rw [hrest] at hd
        cases hd
        exact isIdentifierChar_of_isBlank hc
      obtain ⟨d, name, rfl, hhead⟩ := exists_head_of_isIdentifier hitem
      unfold names?
      split
      · rename_i hparen
        cases hparen
        exact absurd rfl (isIdentifierHead_not hhead).2
      · rw [hread]
        rfl
    | enclosed hitem ha hb => exact parenthesised?_eq_some_iff.2 ⟨_, .enclosed hitem ha hb, rfl⟩
    | indexed hitem hindex ha hb hc hd =>
      exact parenthesised?_eq_some_iff.2 ⟨_, .indexed hitem hindex ha hb hc hd, rfl⟩

/-- The names of a loop do not start with a blank. -/
theorem Names.isBlank_head {item written : Text} {index : Option Text}
    (h : Names item index written) (rest : Text) :
    ∀ c, (written ++ rest).head? = some c → isBlank c = false := by
  cases h with
  | bare hitem =>
    obtain ⟨d, name, rfl, hhead⟩ := exists_head_of_isIdentifier hitem
    exact Text.forall_head?_cons (isIdentifierHead_not hhead).1
  | enclosed | indexed => exact Text.forall_head?_cons (by decide)

theorem exists_blank_head {gap : Text} (rest : Text) (hne : gap ≠ [])
    (hgap : Text.allBlank gap = true) : ∃ c, (gap ++ rest).head? = some c ∧ isBlank c = true := by
  obtain ⟨c, gap, rfl⟩ := List.exists_cons_of_ne_nil hne
  exact ⟨c, rfl, List.all_eq_true.1 hgap c List.mem_cons_self⟩

/-! ### Heads are read, and nothing else -/

/-- What is taken as a loop is written as a head of it. -/
theorem head_of_parse? {t : Text} {l : Loop} (h : parse? t = some l)
    (hfilter : ¬ HasFilter l.source) : Head l t := by
  rw [parse?_eq_scan?, scan?] at h
  split at h
  · cases h
  · rename_i item index afterNames hnames
    split at h
    · cases h
    · rename_i u hafter
      obtain ⟨afterWord, hafter, hlast⟩ := Option.bind_eq_some_iff.1 hafter
      obtain ⟨atWord, hfirst, hword⟩ := Option.bind_eq_some_iff.1 hafter
      obtain ⟨⟨gap, hne, hgap, rfl⟩, -⟩ := blanks?_eq_some_iff.1 hfirst
      obtain ⟨word, hkeyword, rfl⟩ := keyword?_eq_some_iff.1 hword
      obtain ⟨⟨gap', hne', hgap', rfl⟩, hu⟩ := blanks?_eq_some_iff.1 hlast
      obtain ⟨c, hc, hblank⟩ := exists_blank_head (word ++ (gap' ++ u)) hne hgap
      obtain ⟨written, hwritten, hstart⟩ := (names?_eq_some_iff hc hblank).1 hnames
      obtain ⟨⟨before, hbefore, rfl⟩, -⟩ := Text.trimStart_eq_iff.1 hstart
      simp only at h
      split at h
      · cases h
      · rename_i hsource
        cases h
        simp only [Bool.or_eq_true, List.isEmpty_iff, List.contains_eq_mem, decide_eq_true_eq,
          not_or] at hsource
        have htrimmed : (Text.trimEnd u).Trimmed := by
          rw [Text.trimEnd_eq_trim hu]
          exact Text.trimmed_trim u
        obtain ⟨after, hafterBlank, hlast⟩ := Text.exists_eq_trimEnd_append u
        have hhead := Head.mk hwritten ⟨hsource.1, htrimmed, hsource.2, hfilter⟩ hkeyword hne
          hne' hbefore hgap hgap' hafterBlank
        rwa [← hlast] at hhead

/-- A head is taken as its loop. -/
theorem parse?_of_head {t : Text} {l : Loop} (h : Head l t) : parse? t = some l := by
  obtain @⟨item, written, before, gap, word, gap', source, after, index, names, isSource, keyword,
    notEmptyGap, notEmptyGap', blankBefore, blankGap, blankGap', blankAfter⟩ := h
  obtain ⟨c, hc, hblank⟩ :=
    exists_blank_head (word ++ (gap' ++ (source ++ after))) notEmptyGap blankGap
  have hsource : ∀ d, (source ++ after).head? = some d → isBlank d = false := by
    obtain ⟨d, rest, rfl⟩ := List.exists_cons_of_ne_nil isSource.notEmpty
    exact Text.forall_head?_cons (isSource.trimmed.start d rfl)
  have hword : ∀ d, (word ++ (gap' ++ (source ++ after))).head? = some d → isBlank d = false := by
    rcases keyword with rfl | rfl
    · exact Text.forall_head?_cons (by decide)
    · exact Text.forall_head?_cons (by decide)
  have hstart := Text.trimStart_eq_iff.2 ⟨⟨before, blankBefore, rfl⟩,
    names.isBlank_head (gap ++ (word ++ (gap' ++ (source ++ after))))⟩
  have hnames := (names?_eq_some_iff hc hblank).2 ⟨written, names, rfl⟩
  have hgap := blanks?_eq_some_iff.2 ⟨⟨gap, notEmptyGap, blankGap, rfl⟩, hword⟩
  have hafter := keyword?_eq_some_iff.2
    ⟨word, keyword, (rfl : word ++ (gap' ++ (source ++ after)) = _)⟩
  have hgap' := blanks?_eq_some_iff.2 ⟨⟨gap', notEmptyGap', blankGap', rfl⟩, hsource⟩
  have htrim : Text.trimEnd (source ++ after) = source := by
    rw [Text.trimEnd_eq_trim hsource]
    exact Text.trim_append_append (a := []) rfl isSource.trimmed blankAfter
  have hkept : ¬ (source.isEmpty || source.contains '\n') = true := by
    simp [isSource.notEmpty, isSource.oneLine]
  rw [parse?_eq_scan?, scan?, hstart, hnames]
  simp only [hgap, hafter, hgap', Option.bind_some, htrim, if_neg hkept]

end Loop

namespace Rendering

/-- A text is taken as a loop exactly if it is written as the head of that loop, and it is the head
of one loop at most. -/
theorem loop_ok_iff_head (t : Text) (span : Span) :
    (∀ l, loop t span = .ok l ↔ l.Head t) ∧ ∀ l l' : Loop, l.Head t → l'.Head t → l = l' := by
  constructor
  · intro l
    rw [loop_eq_ok_iff]
    constructor
    · rintro ⟨hparse, hfilter⟩
      exact Loop.head_of_parse? hparse hfilter
    · intro hhead
      refine ⟨Loop.parse?_of_head hhead, ?_⟩
      cases hhead with
      | mk names isSource => exact isSource.noFilter
  · intro l l' hhead hhead'
    have hparse := Loop.parse?_of_head hhead
    rw [Loop.parse?_of_head hhead'] at hparse
    exact (Option.some.inj hparse).symm

/-- A head whose names are `in` and `of` and whose list holds both of them, a bar without blanks
around it, and a line feed behind it. -/
def keywordHead : Text := " ( in , of\t) of  in |of in x \n"

theorem loop_ok_iff_head_keywords :
    Loop.Head ⟨"in", some "of", "in |of in x"⟩ keywordHead ∧
      ∀ l : Loop, l.Head keywordHead → l = ⟨"in", some "of", "in |of in x"⟩ := by
  have hread : loop keywordHead (.empty 0) = .ok ⟨"in", some "of", "in |of in x"⟩ := by
    decide +kernel
  obtain ⟨hiff, hunique⟩ := loop_ok_iff_head keywordHead (.empty 0)
  have hhead := (hiff _).1 hread
  exact ⟨hhead, fun l hl => hunique l _ hl hhead⟩

end Rendering

end Wxml
