import Wxml.Proofs.TextLines

/-!
# Tokens of markup

`Token.inside?` follows a text through its interpolations.  A text is read up to the next markup
exactly if it says so (`textLength_append`, `inside?_take`), and it depends on the pieces of the
text only (`inside?_eq_of_pieces_eq`).

`Sign` is a tag or a comment that is read again wherever it stands, `Unended` a tag and `Unclosed` a
comment that does not end.  `Lexed` puts them together, with raw contents up to the closing tags
they belong to, and `lexed_scan` says that the tokens of any text have this form.
-/

namespace Wxml

namespace Layout

open Text

namespace RawElement

/-- How the closing tag of a raw element starts. -/
def closing (e : RawElement) : Text := "</" ++ e.name

/-- A raw element with a name that a tag can have. -/
def Named (e : RawElement) : Prop := ∀ c ∈ e.name, Token.isNameChar c = true

end RawElement

namespace Token

/-! ### Interpolations -/

/-- Whether a text ends inside an interpolation, if it starts inside one or not; `none` if markup
starts in it. -/
def inside? : (inside : Bool) → Text → Option Bool
  | inside, [] => some inside
  | true, '\x7d' :: '\x7d' :: t => inside? false t
  | true, _ :: t => inside? true t
  | false, '\x7b' :: '\x7b' :: t => inside? true t
  | false, c :: t => if startsMarkup (c :: t) then none else inside? false t

/-- A character that completes no sign begun before it: one of markup, or a blank. -/
def Breaks (d : Char) : Prop := d = '<' ∨ isBlank d = true

theorem Breaks.ne {d q : Char} (h : Breaks d) (hq : isBlank q = false) (hne : q ≠ '<') :
    d ≠ q := by
  rintro rfl
  rcases h with rfl | hblank
  · exact hne rfl
  · exact ne_of_isBlank hblank hq rfl

theorem startsMarkup_cons_cons (c d : Char) (t : Text) :
    startsMarkup (c :: d :: t) = (c == '<' && (d.isAlpha || d == '/' || d == '!')) := by
  by_cases hc : c = '<'
  · subst hc
    rfl
  · unfold startsMarkup
    split
    · simp_all
    · simp [hc]

theorem startsMarkup_singleton (c : Char) : startsMarkup [c] = false := by
  unfold startsMarkup
  split
  · simp_all
  · rfl

theorem startsMarkup_eq_false {c : Char} (hc : c ≠ '<') (t : Text) :
    startsMarkup (c :: t) = false := by
  cases t with
  | nil => exact startsMarkup_singleton c
  | cons d t => rw [startsMarkup_cons_cons, beq_eq_false_iff_ne.2 hc, Bool.false_and]

theorem head?_of_startsMarkup {t : Text} (h : startsMarkup t = true) : t.head? = some '<' := by
  cases t with
  | nil => cases h
  | cons c t =>
    by_contra hc
    rw [startsMarkup_eq_false (by simpa using hc)] at h
    cases h

section

variable {c : Char} {t rest : Text}

theorem startsMarkup_append (hrest : ∀ d, rest.head? = some d → Breaks d) :
    startsMarkup (c :: (t ++ rest)) = startsMarkup (c :: t) := by
  match t, rest with
  | [], [] => rfl
  | [], d :: rest =>
    have hd : (d.isAlpha || d == '/' || d == '!') = false := by
      have hbreaks := hrest d rfl
      have h₁ := hbreaks.ne (q := '/') (by decide) (by decide)
      have h₂ := hbreaks.ne (q := '!') (by decide) (by decide)
      rcases hbreaks with rfl | hblank
      · decide
      · have halpha : ¬ d.isAlpha = true :=
          fun halpha => ne_of_isBlank hblank (isBlank_of_isAlpha halpha) rfl
        simp [halpha, h₁, h₂]
    rw [List.nil_append, startsMarkup_cons_cons, startsMarkup_singleton, hd, Bool.and_false]
  | d :: t, rest => rw [List.cons_append, startsMarkup_cons_cons, startsMarkup_cons_cons]

/-- A pair of braces does not come about across a break. -/
theorem not_pair_append {q : Char} (hq : isBlank q = false) (hne : q ≠ '<')
    (h : ∀ t', c = q → t = q :: t' → False) (hrest : ∀ d, rest.head? = some d → Breaks d) :
    ∀ t', c = q → t ++ rest = q :: t' → False := by
  intro t' hc ht
  cases t with
  | nil =>
    rw [List.nil_append] at ht
    exact (hrest q (by rw [ht]; rfl)).ne hq hne rfl
  | cons d t =>
    rw [List.cons_append, List.cons.injEq] at ht
    exact h t hc (by rw [ht.1])

end

theorem inside?_of_startsMarkup {t : Text} (h : startsMarkup t = true) :
    inside? false t = none := by
  obtain ⟨rest, rfl⟩ := List.head?_eq_some_iff.1 (head?_of_startsMarkup h)
  rw [inside?.eq_5 _ _ fun _ h _ => absurd h (by decide), if_pos h]

/-- A text without markup is as long as it is, up to the next markup or the end. -/
theorem textLength_append {inside after : Bool} {t rest : Text}
    (h : inside? inside t = some after)
    (hrest : rest = [] ∨ after = false ∧ startsMarkup rest = true) :
    textLength inside (t ++ rest) = t.length := by
  have hbreaks : ∀ d, rest.head? = some d → Breaks d := by
    intro d hd
    rcases hrest with rfl | ⟨-, hmarkup⟩
    · cases hd
    · rw [head?_of_startsMarkup hmarkup] at hd
      cases hd
      exact .inl rfl
  fun_induction inside? inside t with
  | case1 inside =>
    cases h
    rcases hrest with rfl | ⟨rfl, hmarkup⟩
    · cases after <;> rfl
    · obtain ⟨t, ht⟩ := List.head?_eq_some_iff.1 (head?_of_startsMarkup hmarkup)
      rw [ht] at hmarkup ⊢
      rw [List.nil_append, textLength.eq_5 _ _ fun _ h _ => absurd h (by decide), if_pos hmarkup]
      rfl
  | case2 t ih =>
    rw [List.cons_append, List.cons_append, textLength, ih h]
    rfl
  | case3 c t hpair ih =>
    rw [List.cons_append, textLength.eq_3 _ _ (not_pair_append rfl (by decide) hpair hbreaks),
      ih h]
    rfl
  | case4 t ih =>
    rw [List.cons_append, List.cons_append, textLength, ih h]
    rfl
  | case5 c t hpair hmarkup => cases h
  | case6 c t hpair hmarkup ih =>
    rw [List.cons_append, textLength.eq_5 _ _ (not_pair_append rfl (by decide) hpair hbreaks),
      startsMarkup_append hbreaks, if_neg hmarkup, ih h]
    rfl

theorem not_pair_take {c q : Char} {t : Text} (n : Nat) (h : ∀ t', c = q → t = q :: t' → False) :
    ∀ t', c = q → t.take n = q :: t' → False := by
  intro t' hc ht
  have hcut := List.take_append_drop n t
  rw [ht] at hcut
  exact h _ hc hcut.symm

theorem startsMarkup_take {c : Char} {t : Text} (n : Nat) (h : ¬ startsMarkup (c :: t) = true) :
    ¬ startsMarkup (c :: t.take n) = true := by
  cases ht : t.take n with
  | nil => simp [startsMarkup_singleton]
  | cons d t' =>
    have hcut := List.take_append_drop n t
    rw [ht] at hcut
    rw [← hcut, List.cons_append, startsMarkup_cons_cons] at h
    rwa [startsMarkup_cons_cons]

/-- The text before the next markup is one without markup. -/
theorem inside?_take (inside : Bool) (t : Text) :
    ∃ after, inside? inside (t.take (textLength inside t)) = some after ∧
      (t.drop (textLength inside t) = [] ∨
        after = false ∧ startsMarkup (t.drop (textLength inside t)) = true) := by
  fun_induction textLength inside t with
  | case1 inside => exact ⟨inside, rfl, .inl rfl⟩
  | case2 t ih => exact ih
  | case3 c t hpair ih =>
    obtain ⟨after, hafter, hrest⟩ := ih
    refine ⟨after, ?_, hrest⟩
    rw [List.take_succ_cons, inside?.eq_3 _ _ (not_pair_take _ hpair), hafter]
  | case4 t ih => exact ih
  | case5 c t hpair hmarkup => exact ⟨false, rfl, .inr ⟨rfl, hmarkup⟩⟩
  | case6 c t hpair hmarkup ih =>
    obtain ⟨after, hafter, hrest⟩ := ih
    refine ⟨after, ?_, hrest⟩
    rw [List.take_succ_cons, inside?.eq_5 _ _ (not_pair_take _ hpair),
      if_neg (startsMarkup_take _ hmarkup), hafter]

theorem inside?_cons_blank (inside : Bool) {w : Char} (hw : isBlank w = true) (t : Text) :
    inside? inside (w :: t) = inside? inside t := by
  have hne : ∀ q, isBlank q = false → w ≠ q := fun q hq => ne_of_isBlank hw hq
  cases inside with
  | true => exact inside?.eq_3 _ _ fun _ h _ => hne _ rfl h
  | false =>
    rw [inside?.eq_5 _ _ fun _ h _ => hne _ rfl h, startsMarkup_eq_false (hne _ rfl)]
    rfl

/-- A blank splits a text into two that are read one after the other. -/
theorem inside?_append_blank (inside : Bool) (t : Text) {w : Char} (hw : isBlank w = true)
    (rest : Text) :
    inside? inside (t ++ w :: rest) = (inside? inside t).bind (inside? · rest) := by
  have hbreaks : ∀ d, (w :: rest).head? = some d → Breaks d := by
    rintro d ⟨⟩
    exact .inr hw
  fun_induction inside? inside t with
  | case1 inside => exact inside?_cons_blank inside hw rest
  | case2 t ih => exact ih
  | case3 c t hpair ih =>
    rw [List.cons_append, inside?.eq_3 _ _ (not_pair_append rfl (by decide) hpair hbreaks)]
    exact ih
  | case4 t ih => exact ih
  | case5 c t hpair hmarkup =>
    rw [List.cons_append, inside?.eq_5 _ _ (not_pair_append rfl (by decide) hpair hbreaks),
      startsMarkup_append hbreaks, if_pos hmarkup]
    rfl
  | case6 c t hpair hmarkup ih =>
    rw [List.cons_append, inside?.eq_5 _ _ (not_pair_append rfl (by decide) hpair hbreaks),
      startsMarkup_append hbreaks, if_neg hmarkup]
    exact ih

theorem inside?_append_left (inside : Bool) {w : Text} (hw : allBlank w = true) (t : Text) :
    inside? inside (w ++ t) = inside? inside t := by
  induction w with
  | nil => rfl
  | cons c w ih =>
    rw [allBlank, List.all_cons, Bool.and_eq_true] at hw
    rw [List.cons_append, inside?_cons_blank inside hw.1, ih hw.2]

theorem inside?_append_right (inside : Bool) (t : Text) {w : Text} (hw : allBlank w = true) :
    inside? inside (t ++ w) = inside? inside t := by
  cases w with
  | nil => rw [List.append_nil]
  | cons c w =>
    rw [allBlank, List.all_cons, Bool.and_eq_true] at hw
    have hnone : ∀ b, inside? b w = some b := by
      intro b
      have := inside?_append_left b hw.2 []
      simpa [inside?] using this
    rw [inside?_append_blank inside t hw.1]
    cases inside? inside t with
    | none => rfl
    | some after => exact hnone after

theorem inside?_trim (inside : Bool) (t : Text) : inside? inside (trim t) = inside? inside t := by
  obtain ⟨a, b, ha, hb, ht⟩ := exists_eq_append_trim t
  nth_rewrite 2 [ht]
  rw [inside?_append_left inside ha, inside?_append_right inside _ hb]

/-- Whether some lines end inside an interpolation. -/
def linesInside? : (inside : Bool) → List Text → Option Bool
  | inside, [] => some inside
  | inside, l :: ls => (inside? inside l).bind (linesInside? · ls)

theorem inside?_join (inside : Bool) (ls : List Text) :
    inside? inside (join ['\n'] ls) = linesInside? inside ls := by
  fun_induction join ['\n'] ls generalizing inside with
  | case1 => rfl
  | case2 t =>
    cases h : inside? inside t <;> simp [linesInside?, h]
  | case3 t ts hts ih =>
    rw [List.append_assoc, List.singleton_append, inside?_append_blank inside t (by decide)]
    simp only [ih]
    rfl

theorem linesInside?_trimmedLines (inside : Bool) (ls : List Text) :
    linesInside? inside (trimmedLines ls) = linesInside? inside ls := by
  induction ls generalizing inside with
  | nil => rfl
  | cons l ls ih =>
    rw [trimmedLines_cons, linesInside?, ← inside?_trim inside l]
    split
    · rename_i hblank
      rw [trim_eq_nil_iff.2 hblank, List.nil_append, ih]
      rfl
    · rw [List.singleton_append, linesInside?]
      simp only [ih]

/-- Where a text ends depends on its pieces only. -/
theorem inside?_eq_of_pieces_eq {s t : Text} (h : pieces s = pieces t) (inside : Bool) :
    inside? inside s = inside? inside t := by
  have hpieces : ∀ u, inside? inside u = linesInside? inside (pieces u) := by
    intro u
    rw [pieces, linesInside?_trimmedLines, ← inside?_join, join_splitOn]
  rw [hpieces, hpieces, h]

/-! ### Tags and comments -/

/-- A tag that does not end. -/
structure Unended (t : Text) : Prop where
  starts : startsMarkup t = true
  notComment : ¬ ("<!--" : Text) <+: t
  noEnd : tagLength? none (t.drop 1) = none

/-- A comment that does not end. -/
structure Unclosed (t : Text) : Prop where
  starts : ("<!--" : Text) <+: t
  noEnd : ¬ ("-->" : Text) <:+: t

/-- Whether a token is a tag or a comment. -/
def isMark : Token → Bool
  | text _ => false
  | raw _ _ => false
  | _ => true

/-- A tag, or a comment that ends: it is read as it is, whatever comes after it. -/
structure Sign (m : Token) : Prop where
  isMark : m.isMark = true
  starts : startsMarkup m.source = true
  closes : '>' ∈ m.source
  ended : ∀ markup, m = comment markup → ("-->" : Text) <:+: markup
  reads : ∀ rest, first (m.source ++ rest) = m

/-- A tag or a comment that is read as it is, whatever comes after it.  After a comment that does
not end there is nothing; `later` are the tokens after the mark. -/
structure Mark (o : Options) (m : Token) (later : List Token) : Prop where
  isMark : m.isMark = true
  starts : startsMarkup m.source = true
  reads : ∀ rest, (later = [] → rest = []) → first (m.source ++ rest) = m
  notRaw : m.rawAfter o = none

theorem startsMarkup_append_right {t : Text} (h : startsMarkup t = true) (rest : Text) :
    startsMarkup (t ++ rest) = true := by
  match t with
  | [] => cases h
  | [c] =>
    rw [startsMarkup_singleton] at h
    cases h
  | c :: d :: t =>
    rw [startsMarkup_cons_cons] at h
    rw [List.cons_append, List.cons_append, startsMarkup_cons_cons, h]

/-- The quote character of the value that a tag is inside of after a character. -/
def quoteAfter : Option Char → Char → Option Char
  | some q, c => if c == q then none else some q
  | none, c => if Cursor.isQuote c then some c else none

theorem tagLength?_cons (quote : Option Char) (c : Char) (t : Text) :
    tagLength? quote (c :: t) =
      if quote = none ∧ c = '>' then some 1
      else (tagLength? (quoteAfter quote c) t).map (· + 1) := by
  cases quote with
  | some q => simp [tagLength?, quoteAfter]
  | none =>
    by_cases hc : c = '>'
    · subst hc
      rfl
    · by_cases hquote : Cursor.isQuote c = true
      · simp [tagLength?, quoteAfter, hc, hquote]
      · simp [tagLength?, quoteAfter, hc, hquote]

/-- The end of a tag is a `>`, and what comes after it does not matter. -/
theorem tagLength?_take {quote : Option Char} {t : Text} {n : Nat}
    (h : tagLength? quote t = some n) :
    0 < n ∧ n ≤ t.length ∧ '>' ∈ t.take n ∧
      ∀ rest, tagLength? quote (t.take n ++ rest) = some n := by
  induction t generalizing quote n with
  | nil => cases h
  | cons c t ih =>
    rw [tagLength?_cons] at h
    by_cases hend : quote = none ∧ c = '>'
    · rw [if_pos hend] at h
      cases h
      refine ⟨by omega, by simp, by simp [hend.2], fun rest => ?_⟩
      rw [List.take_succ_cons, List.cons_append, tagLength?_cons, if_pos hend]
    · rw [if_neg hend] at h
      obtain ⟨k, hk, rfl⟩ := Option.map_eq_some_iff.1 h
      obtain ⟨-, hle, hmem, hreads⟩ := ih hk
      refine ⟨by omega, by simpa using hle, ?_, fun rest => ?_⟩
      · rw [List.take_succ_cons]
        exact List.mem_cons_of_mem _ hmem
      · rw [List.take_succ_cons, List.cons_append, tagLength?_cons, if_neg hend, hreads]
        rfl

theorem first_of_tag {t : Text} {n : Nat} (hstarts : startsMarkup t = true)
    (hcomment : ¬ ("<!--" : Text) <+: t) (hlength : tagLength? none (t.drop 1) = some n) :
    first t = ofTag (t.take (n + 1)) := by
  rw [first, if_neg (by rwa [List.isPrefixOf_iff_prefix]), if_pos hstarts, hlength]

/-- A tag is read as it is. -/
theorem first_tag_append {t : Text} {n : Nat} (hstarts : startsMarkup t = true)
    (hcomment : ¬ ("<!--" : Text) <+: t) (hlength : tagLength? none (t.drop 1) = some n)
    (rest : Text) :
    startsMarkup (t.take (n + 1)) = true ∧
      first (t.take (n + 1) ++ rest) = ofTag (t.take (n + 1)) := by
  obtain ⟨hpos, hle, hmem, hreads⟩ := tagLength?_take hlength
  obtain ⟨body, hbody⟩ := List.head?_eq_some_iff.1 (head?_of_startsMarkup hstarts)
  have hlong : (t.take (n + 1)).length = n + 1 := by
    rw [hbody] at hle ⊢
    simp only [List.drop_succ_cons, List.drop_zero] at hle
    simp only [List.take_succ_cons, List.length_cons, List.length_take]
    omega
  have htake : '>' ∈ t.take (n + 1) := by
    rw [hbody] at hmem ⊢
    exact List.mem_cons_of_mem _ hmem
  have hmarkup : startsMarkup (t.take (n + 1)) = true := by
    obtain ⟨k, rfl⟩ : ∃ k, n = k + 1 := ⟨n - 1, by omega⟩
    rw [hbody] at hstarts ⊢
    cases body with
    | nil => cases hstarts
    | cons d body => exact hstarts
  refine ⟨hmarkup, ?_⟩
  rw [first_of_tag (n := n) (startsMarkup_append_right hmarkup rest)]
  · rw [List.take_append_of_le_length (by omega), List.take_take, Nat.min_self]
  · -- The `>` of the tag is no part of the mark of a comment.
    intro hprefix
    rcases List.prefix_or_prefix_of_prefix hprefix (List.prefix_append ..) with hshort | hshort
    · exact hcomment (hshort.trans (List.take_prefix ..))
    · exact absurd (hshort.subset htake) (by decide)
  · rw [List.drop_append_of_le_length (by omega), List.drop_take, Nat.add_sub_cancel]
    exact hreads rest

/-- A pattern is found again before anything else. -/
theorem breakOn_again {pattern t before after : Text} (hne : pattern ≠ [])
    (h : breakOn pattern t = (before, pattern ++ after)) (rest : Text) :
    breakOn pattern (before ++ (pattern ++ rest)) = (before, pattern ++ rest) := by
  refine breakOn_append_of_not_isPrefix (List.prefix_append ..) hne fun u hu hsuffix hprefix => ?_
  have hnone := not_isPrefix_of_breakOn pattern t hu (by rwa [h])
  rw [h] at hnone
  apply hnone
  have hlong : u ++ pattern <+: u ++ (pattern ++ rest) := ⟨rest, by simp⟩
  have hshort : pattern <+: u ++ pattern :=
    List.prefix_of_prefix_length_le hprefix hlong (by simp)
  exact hshort.trans ⟨after, by simp⟩

theorem first_of_comment {t : Text} (h : ("<!--" : Text) <+: t) : first t = ofComment t := by
  rw [first, if_pos (List.isPrefixOf_iff_prefix.2 h)]

/-- A comment does not end, or it is read as it is. -/
theorem unclosed_or_comment {t : Text} (h : ("<!--" : Text) <+: t) :
    Unclosed t ∨ ∃ content, content <+: t ∧ ("<!--" : Text) <+: content ∧
      ("-->" : Text) <:+: content ∧ ∀ rest, first (content ++ rest) = comment content := by
  have hwhole := breakOn_append "-->" t
  cases hbreak : breakOn "-->" t with
  | mk before after =>
    rw [hbreak] at hwhole
    cases after with
    | nil =>
      have hnone : ¬ ("-->" : Text) <:+: (breakOn "-->" t).1 := not_isInfix_breakOn t (by simp)
      rw [hbreak, ← List.append_nil before, hwhole] at hnone
      exact .inl ⟨h, hnone⟩
    | cons c after =>
      right
      have hclosing := breakOn_snd_cases "-->" t
      rw [hbreak] at hclosing
      obtain ⟨later, hlater⟩ := hclosing.resolve_left (by simp)
      simp only at hlater hwhole
      have hbefore : before ≠ [] := by
        rintro rfl
        obtain ⟨body, hbody⟩ := h
        rw [List.nil_append, ← hlater, ← hbody] at hwhole
        cases hwhole
      have hlength : (before ++ ("-->" : Text)).length = before.length + 3 := by simp
      have hprefix : before ++ ("-->" : Text) <+: t := ⟨later, by rw [← hwhole, ← hlater]; simp⟩
      have hstarts : ("<!--" : Text) <+: before ++ "-->" := by
        apply List.prefix_of_prefix_length_le h hprefix
        have := List.length_pos_iff.2 hbefore
        simp only [hlength]
        show 4 ≤ _
        omega
      have hagain : ∀ rest, ofComment (before ++ ("-->" : Text) ++ rest) =
          comment (before ++ "-->") := by
        intro rest
        have hsplit := breakOn_again (by simp) (hbreak.trans (by rw [hlater])) rest
        rw [ofComment, List.append_assoc, hsplit]
        show comment _ = comment _
        rw [← List.append_assoc, ← hlength, List.take_left]
      refine ⟨before ++ "-->", hprefix, hstarts, (List.suffix_append ..).isInfix, fun rest => ?_⟩
      rw [first_of_comment (hstarts.trans (List.prefix_append ..)), hagain]

theorem scan_nil (o : Options) (element : Option RawElement) : scan o element [] = [] := by
  rw [scan, dif_pos rfl]

theorem scan_of_ne_nil {o : Options} {t : Text} (h : t ≠ []) :
    scan o none t = first t :: scan o ((first t).rawAfter o) (t.drop (first t).source.length) := by
  rw [scan, dif_neg h]
  rfl

theorem ne_nil_of_startsMarkup {t : Text} (h : startsMarkup t = true) : t ≠ [] := by
  rintro rfl
  cases h

theorem startsMarkup_of_comment {t : Text} (h : ("<!--" : Text) <+: t) : startsMarkup t = true := by
  obtain ⟨rest, rfl⟩ := h
  rfl

theorem scan_of_unended {o : Options} {t : Text} (h : Unended t) : scan o none t = [text t] := by
  have hfirst : first t = text t := by
    rw [first, if_neg (by rw [List.isPrefixOf_iff_prefix]; exact h.notComment), if_pos h.starts,
      h.noEnd]
  rw [scan_of_ne_nil (ne_nil_of_startsMarkup h.starts), hfirst]
  show text t :: scan o none (t.drop t.length) = [text t]
  rw [List.drop_length, scan_nil]

theorem scan_of_unclosed {o : Options} {t : Text} (h : Unclosed t) :
    scan o none t = [comment t] := by
  rw [scan_of_ne_nil (ne_nil_of_startsMarkup (startsMarkup_of_comment h.starts)),
    first_of_comment h.starts, ofComment, breakOn_of_not_isInfix h.noEnd]
  show comment t :: scan o none (t.drop t.length) = [comment t]
  rw [List.drop_length, scan_nil]

theorem scan_of_sign {o : Options} {m : Token} (h : Sign m) (rest : Text) :
    scan o none (m.source ++ rest) = m :: scan o (m.rawAfter o) rest := by
  have hne := ne_nil_of_startsMarkup (startsMarkup_append_right h.starts rest)
  rw [scan_of_ne_nil hne, h.reads, List.drop_left]

theorem scan_of_mark {o : Options} {m : Token} {later : List Token} (h : Mark o m later)
    {rest : Text} (hrest : later = [] → rest = []) :
    scan o none (m.source ++ rest) = m :: scan o none rest := by
  have hne := ne_nil_of_startsMarkup (startsMarkup_append_right h.starts rest)
  rw [scan_of_ne_nil hne, h.reads rest hrest, h.notRaw, List.drop_left]

theorem isMark_ofTag (markup : Text) : (ofTag markup).isMark = true := by
  unfold ofTag
  split
  · rfl
  · simp only
    split <;> rfl

theorem ofTag_ne_comment (tag markup : Text) : ofTag tag ≠ comment markup := by
  unfold ofTag
  split
  · simp
  · simp only
    split <;> simp

/-- Markup is a tag or a comment that does not end, or one that is read as it is. -/
theorem markup_cases {t : Text} (hstarts : startsMarkup t = true) :
    Unended t ∨ Unclosed t ∨ ∃ m rest, t = m.source ++ rest ∧ Sign m := by
  by_cases hcomment : ("<!--" : Text) <+: t
  · rcases unclosed_or_comment hcomment with
      hunclosed | ⟨content, ⟨rest, rfl⟩, hmark, hend, hreads⟩
    · exact .inr (.inl hunclosed)
    · exact .inr (.inr ⟨comment content, rest, rfl, rfl, startsMarkup_of_comment hmark,
        hend.subset (by decide), by rintro _ ⟨⟩; exact hend, hreads⟩)
  · cases hlength : tagLength? none (t.drop 1) with
    | none => exact .inl ⟨hstarts, hcomment, hlength⟩
    | some n =>
      refine .inr (.inr ⟨ofTag (t.take (n + 1)), t.drop (n + 1), ?_, isMark_ofTag _, ?_, ?_,
        fun markup h => absurd h (ofTag_ne_comment _ markup), fun rest => ?_⟩)
      · rw [source_ofTag, List.take_append_drop]
      · rw [source_ofTag]
        exact (first_tag_append hstarts hcomment hlength []).1
      · obtain ⟨-, -, hmem, -⟩ := tagLength?_take hlength
        have hcut : (t.take (n + 1)).drop 1 = (t.drop 1).take n := by
          rw [List.drop_take, Nat.add_sub_cancel]
        rw [← hcut] at hmem
        rw [source_ofTag]
        exact List.mem_of_mem_drop hmem
      · rw [source_ofTag]
        exact (first_tag_append hstarts hcomment hlength rest).2

/-- What reads like a closing tag is one. -/
theorem Sign.exists_closed {m : Token} (h : Sign m) (hslash : ("</" : Text) <+: m.source) :
    ∃ name markup, m = closed name markup := by
  obtain ⟨body, hbody⟩ := hslash
  have hreads := h.reads []
  rw [List.append_nil, ← hbody] at hreads
  have hstarts : startsMarkup (("</" : Text) ++ body) = true := rfl
  have hcomment : ¬ ("<!--" : Text) <+: "</" ++ body := by
    intro hcomment
    exact absurd (List.prefix_or_prefix_of_prefix hcomment (List.prefix_append _ _)) (by decide)
  cases hlength : tagLength? none ((("</" : Text) ++ body).drop 1) with
  | none =>
    have hmark := h.isMark
    rw [first, if_neg (by rwa [List.isPrefixOf_iff_prefix]), if_pos hstarts, hlength] at hreads
    rw [← hreads] at hmark
    cases hmark
  | some n =>
    obtain ⟨k, rfl⟩ : ∃ k, n = k + 1 := ⟨n - 1, by have := (tagLength?_take hlength).1; omega⟩
    rw [first_of_tag hstarts hcomment hlength] at hreads
    exact ⟨_, _, hreads.symm⟩

/-! ### Raw content -/

/-- A raw content as a token; an empty one is none. -/
def raw? (content : Text) (script : Bool) : List Token :=
  if content = [] then [] else [raw content script]

theorem raw?_of_ne_nil {content : Text} (h : content ≠ []) (script : Bool) :
    raw? content script = [raw content script] := if_neg h

/-- Raw content comes before the closing tag of its element. -/
theorem scan_raw (o : Options) (e : RawElement) (t : Text) :
    scan o (some e) t =
      raw? (breakOn e.closing t).1 e.script ++ scan o none (breakOn e.closing t).2 := by
  have hwhole := breakOn_append e.closing t
  by_cases ht : t = []
  · subst ht
    rw [scan_nil]
    show _ = [] ++ scan o none []
    rw [scan_nil]
    rfl
  by_cases hcontent : (breakOn e.closing t).1 = []
  · have hnext : next (some e) t = first t := by
      show (if (breakOn e.closing t).1.isEmpty then first t else _) = _
      rw [if_pos (List.isEmpty_iff.2 hcontent)]
    rw [hcontent, List.nil_append] at hwhole
    rw [scan, dif_neg ht, hnext, hcontent, hwhole, scan_of_ne_nil ht]
    rfl
  · have hnext : next (some e) t = raw (breakOn e.closing t).1 e.script := by
      show (if (breakOn e.closing t).1.isEmpty then first t else _) = _
      rw [if_neg (mt List.isEmpty_iff.1 hcontent)]
      rfl
    have hrest : ((breakOn e.closing t).1 ++ (breakOn e.closing t).2).drop
        (breakOn e.closing t).1.length = (breakOn e.closing t).2 := List.drop_left
    rw [hwhole] at hrest
    rw [scan, dif_neg ht, hnext, raw?_of_ne_nil hcontent]
    show _ :: scan o none (t.drop (breakOn e.closing t).1.length) = _
    rw [hrest]
    rfl

theorem slash_of_closing {e : RawElement} {t : Text} (h : e.closing <+: t) :
    ("</" : Text) <+: t := (List.prefix_append _ _).trans h

theorem startsMarkup_of_closing {e : RawElement} {t : Text} (h : e.closing <+: t) :
    startsMarkup t = true := by
  obtain ⟨rest, rfl⟩ := slash_of_closing h
  rfl

theorem scan_of_closing {o : Options} {e : RawElement} {t : Text} (h : e.closing <+: t) :
    scan o (some e) t = scan o none t := by
  have hbreak := breakOn_append_of_not_isPrefix (t := []) h (by simp [RawElement.closing])
    fun u hu hsuffix => absurd (List.suffix_nil.1 hsuffix) hu
  rw [scan_raw, show t = [] ++ t from rfl, hbreak]
  rfl

theorem isNameChar_of_first {t name markup : Text} (h : first t = opened name markup) :
    ∀ c ∈ name, isNameChar c = true := by
  have htag (tag : Text) (htag : ofTag tag = opened name markup) :
      ∀ c ∈ name, isNameChar c = true := by
    unfold ofTag at htag
    split at htag
    · cases htag
    · simp only at htag
      split at htag
      · cases htag
      · cases htag
        exact List.all_eq_true.1 List.all_takeWhile
  unfold first at h
  split at h
  · unfold ofComment at h
    split at h <;> cases h
  · split at h
    · split at h
      · exact htag _ h
      · cases h
    · cases h

theorem exists_opened_of_rawAfter {o : Options} {token : Token} {e : RawElement}
    (h : token.rawAfter o = some e) : ∃ markup, token = opened e.name markup := by
  unfold rawAfter at h
  split at h
  · rename_i name markup
    split at h
    · cases h
      exact ⟨markup, rfl⟩
    · split at h
      · cases h
        exact ⟨markup, rfl⟩
      · cases h
  · cases h

/-- The name of an element whose content is raw. -/
theorem Sign.named {o : Options} {m : Token} (h : Sign m) {e : RawElement}
    (he : m.rawAfter o = some e) : e.Named := by
  obtain ⟨markup, rfl⟩ := exists_opened_of_rawAfter he
  exact isNameChar_of_first (h.reads [])

/-! ### All tokens -/

/-- A text as a token; an empty one is none. -/
def text? (t : Text) : List Token := if t = [] then [] else [text t]

theorem text?_nil : text? [] = [] := rfl

theorem text?_of_ne_nil {t : Text} (h : t ≠ []) : text? t = [text t] := if_neg h

/-- Text comes before the next markup. -/
theorem scan_eq (o : Options) (t : Text) :
    scan o none t =
      text? (t.take (textLength false t)) ++ scan o none (t.drop (textLength false t)) := by
  by_cases hnone : textLength false t = 0
  · rw [hnone]
    rfl
  · have hne : t ≠ [] := by
      rintro rfl
      exact hnone rfl
    have hmarkup : ¬ startsMarkup t = true := by
      intro hstarts
      apply hnone
      have hnil : inside? false [] = some false := rfl
      have hlength := textLength_append hnil (.inr ⟨rfl, hstarts⟩)
      simpa using hlength
    have hcomment : ¬ ("<!--" : Text) <+: t := fun h => hmarkup (startsMarkup_of_comment h)
    have hfirst : first t = text (t.take (textLength false t)) := by
      rw [first, if_neg (by rwa [List.isPrefixOf_iff_prefix]), if_neg hmarkup]
    have htake : t.take (textLength false t) ≠ [] := by
      simp [hnone, hne]
    rw [text?_of_ne_nil htake, scan_of_ne_nil hne, hfirst]
    show _ :: scan o none (t.drop (t.take (textLength false t)).length) = _
    rw [List.length_take]
    rcases Nat.le_total (textLength false t) t.length with hle | hle
    · rw [Nat.min_eq_left hle]
      rfl
    · rw [Nat.min_eq_right hle, List.drop_length, List.drop_eq_nil_of_le hle]
      rfl

theorem scan_text_append (o : Options) {t rest : Text} {after : Bool}
    (h : inside? false t = some after)
    (hrest : rest = [] ∨ after = false ∧ startsMarkup rest = true) :
    scan o none (t ++ rest) = text? t ++ scan o none rest := by
  rw [scan_eq, textLength_append h hrest, List.take_left, List.drop_left]

/-- The tokens of a text, at the start of the content of a raw element or of nothing such: texts
between tags and comments, and raw contents after the opening tags they belong to.  At the end may
be a tag or a comment that does not end. -/
inductive Lexed (o : Options) : (element : Option RawElement) → List Token → Prop
  | last {t u : Text} {after : Bool} (ht : inside? false t = some after)
      (hu : u = [] ∨ after = false ∧ Unended u) : Lexed o none (text? t ++ text? u)
  | unclosed {t u : Text} (ht : inside? false t = some false) (hu : Unclosed u) :
      Lexed o none (text? t ++ [comment u])
  | sign {t : Text} {m : Token} {later : List Token} (ht : inside? false t = some false)
      (hm : Sign m) (hlater : Lexed o (m.rawAfter o) later) : Lexed o none (text? t ++ m :: later)
  | raw {e : RawElement} {content : Text} {later : List Token} (hname : e.Named)
      (hcontent : ¬ e.closing <:+: content)
      (hclose : ∀ token, later.head? = some token → e.closing <+: token.source)
      (hlater : Lexed o none later) : Lexed o (some e) (raw? content e.script ++ later)

theorem not_mem_text? {m : Token} (hm : m.isMark = true) (t : Text) : m ∉ text? t := by
  unfold text?
  split
  · simp
  · rw [List.mem_singleton]
    rintro rfl
    cases hm

/-- What comes after a closing tag. -/
theorem Lexed.of_closed {o : Options} {name markup : Text} {later : List Token} {t : Text}
    (h : Lexed o none (text? t ++ closed name markup :: later)) :
    inside? false t = some false ∧ Sign (closed name markup) ∧ Lexed o none later := by
  generalize htokens : text? t ++ closed name markup :: later = tokens at h
  have hmark : (closed name markup).isMark = true := rfl
  cases h with
  | @last a b after ha hb =>
    have hmem : closed name markup ∈ text? a ++ text? b := by simp [← htokens]
    rcases List.mem_append.1 hmem with hmem | hmem
    · exact absurd hmem (not_mem_text? hmark a)
    · exact absurd hmem (not_mem_text? hmark b)
  | @unclosed a b ha hb =>
    have hmem : closed name markup ∈ text? a ++ [comment b] := by simp [← htokens]
    rcases List.mem_append.1 hmem with hmem | hmem
    · exact absurd hmem (not_mem_text? hmark a)
    · simp at hmem
  | @sign a m' later' ha hm' hlater' =>
    have hisMark := hm'.isMark
    by_cases ht : t = []
    · by_cases hnil : a = []
      · subst ht hnil
        cases htokens
        exact ⟨rfl, hm', hlater'⟩
      · rw [ht, text?_of_ne_nil hnil] at htokens
        cases htokens
    · by_cases hnil : a = []
      · rw [hnil, text?_of_ne_nil ht] at htokens
        cases htokens
        cases hisMark
      · rw [text?_of_ne_nil ht, text?_of_ne_nil hnil] at htokens
        cases htokens
        exact ⟨ha, hm', hlater'⟩

/-- The token at the closing tag of a raw element starts with all of it that matters. -/
theorem closing_isPrefix_of_head? {o : Options} {e : RawElement} (hname : e.Named) {t : Text}
    (h : e.closing <+: t) :
    ∀ token, (scan o none t).head? = some token → e.closing <+: token.source := by
  intro token htoken
  rcases markup_cases (startsMarkup_of_closing h) with hunended | hunclosed | ⟨m, rest, rfl, hm⟩
  · rw [scan_of_unended hunended] at htoken
    cases htoken
    exact h
  · have hboth := List.prefix_or_prefix_of_prefix (slash_of_closing h) hunclosed.starts
    exact absurd hboth (by decide)
  · have hsame : m = token := by simpa [scan_of_sign hm] using htoken
    rw [← hsame]
    rcases List.prefix_or_prefix_of_prefix h (List.prefix_append m.source rest) with hle | hle
    · exact hle
    · -- The end of the tag is no part of the pattern.
      have hmem := hle.subset hm.closes
      rw [RawElement.closing, List.mem_append] at hmem
      rcases hmem with hmem | hmem
      · exact absurd hmem (by decide)
      · exact absurd (hname _ hmem) (by decide)

theorem lexed_scan_raw {o : Options} {e : RawElement} (hname : e.Named) {t : Text}
    (h : Lexed o none (scan o none (breakOn e.closing t).2)) :
    Lexed o (some e) (scan o (some e) t) := by
  rw [scan_raw]
  refine .raw hname (not_isInfix_breakOn t (by simp [RawElement.closing])) ?_ h
  rcases breakOn_snd_cases e.closing t with hnil | hprefix
  · rw [hnil, scan_nil]
    simp
  · exact closing_isPrefix_of_head? hname hprefix

/-- Any text has such tokens. -/
theorem lexed_scan (o : Options) (t : Text) : Lexed o none (scan o none t) := by
  obtain ⟨after, hafter, hrest⟩ := inside?_take false t
  rw [scan_eq]
  generalize hdrop : t.drop (textLength false t) = u at hrest
  have hlength : u.length ≤ t.length := by
    rw [← hdrop, List.length_drop]
    omega
  rcases hrest with rfl | ⟨rfl, hstarts⟩
  · rw [scan_nil]
    exact .last hafter (.inl rfl)
  · rcases markup_cases hstarts with hunended | hunclosed | ⟨m, rest, rfl, hm⟩
    · rw [scan_of_unended hunended, ← text?_of_ne_nil (ne_nil_of_startsMarkup hstarts)]
      exact .last hafter (.inr ⟨rfl, hunended⟩)
    · rw [scan_of_unclosed hunclosed]
      exact .unclosed hafter hunclosed
    · have hshorter : rest.length < t.length := by
        have := List.length_pos_iff.2 (ne_nil_of_startsMarkup hm.starts)
        rw [List.length_append] at hlength
        omega
      rw [scan_of_sign hm]
      refine .sign hafter hm ?_
      cases hraw : m.rawAfter o with
      | none => exact lexed_scan o rest
      | some e =>
        have hcut : (breakOn e.closing rest).2.length ≤ rest.length :=
          List.IsSuffix.length_le ⟨_, breakOn_append e.closing rest⟩
        exact lexed_scan_raw (hm.named hraw) (lexed_scan o (breakOn e.closing rest).2)
termination_by t.length
decreasing_by all_goals omega

@[simp]
theorem not_raw_mem_text? {content : Text} {script : Bool} (t : Text) :
    raw content script ∉ text? t := by
  unfold text?
  split <;> simp

/-- There is no raw content without an element for it. -/
theorem Lexed.ne_raw {o : Options} {element : Option RawElement} {tokens : List Token}
    (h : Lexed o element tokens) (hnone : element = none)
    (hraw : ∀ token ∈ tokens, token.rawAfter o = none) (content : Text) (script : Bool) :
    Token.raw content script ∉ tokens := by
  induction h with
  | last ht hu => simp
  | unclosed ht hu => simp
  | sign ht hm hlater ih =>
    rw [List.forall_mem_append, List.forall_mem_cons] at hraw
    intro hmem
    rcases List.mem_cons.1 ((List.mem_append.1 hmem).resolve_left (by simp)) with rfl | hmem
    · cases hm.isMark
    · exact ih hraw.2.1 hraw.2.2 hmem
  | raw hname hcontent hclose hlater => cases hnone

/-- The tokens of markup without raw content. -/
structure Scanned (o : Options) (tokens : List Token) : Prop where
  lexed : Lexed o none tokens
  notRaw : ∀ token ∈ tokens, token.rawAfter o = none

theorem scanned_scan {o : Options} (t : Text)
    (hraw : ∀ token ∈ scan o none t, token.rawAfter o = none) : Scanned o (scan o none t) :=
  ⟨lexed_scan o t, hraw⟩

/-! ### Tags that do not end -/

theorem isBlank_of_isQuote {c : Char} (h : Cursor.isQuote c = true) : isBlank c = false := by
  simp only [Cursor.isQuote, Bool.or_eq_true, beq_iff_eq] at h
  rcases h with rfl | rfl
  · decide
  · decide

theorem isBlank_of_quoteAfter {quote : Option Char} {c q : Char}
    (hquote : ∀ q, quote = some q → isBlank q = false) (h : quoteAfter quote c = some q) :
    isBlank q = false := by
  unfold quoteAfter at h
  split at h
  · split at h
    · cases h
    · exact hquote q h
  · split at h
    · rename_i hc
      cases h
      exact isBlank_of_isQuote hc
    · cases h

theorem quoteAfter_of_isBlank {quote : Option Char} {c : Char}
    (hquote : ∀ q, quote = some q → isBlank q = false) (hc : isBlank c = true) :
    quoteAfter quote c = quote := by
  cases quote with
  | some q =>
    rw [quoteAfter, if_neg (by simpa using ne_of_isBlank hc (hquote q rfl))]
  | none =>
    rw [quoteAfter, if_neg fun hq => ne_of_isBlank hc (isBlank_of_isQuote hq) rfl]

/-- Blanks do not end a tag. -/
theorem tagLength?_solid {quote : Option Char} (hquote : ∀ q, quote = some q → isBlank q = false)
    (t : Text) : tagLength? quote (solid t) = none ↔ tagLength? quote t = none := by
  induction t generalizing quote with
  | nil => rfl
  | cons c t ih =>
    by_cases hc : isBlank c = true
    · have hend : ¬ (quote = none ∧ c = '>') := by
        rintro ⟨-, rfl⟩
        cases hc
      rw [solid_cons_of_isBlank hc, tagLength?_cons, if_neg hend, quoteAfter_of_isBlank hquote hc,
        Option.map_eq_none_iff]
      exact ih hquote
    · have hsolid : solid (c :: t) = c :: solid t := by simp [solid, hc]
      rw [hsolid, tagLength?_cons, tagLength?_cons]
      split
      · rfl
      · rw [Option.map_eq_none_iff, Option.map_eq_none_iff]
        exact ih fun q => isBlank_of_quoteAfter hquote

/-- A tag that does not end is still one when the blanks after the line it starts on are others. -/
theorem Unended.move {line rest rest' : Text} (h : Unended (line ++ rest))
    (hrest : ∀ d, rest.head? = some d → isBlank d = true)
    (hrest' : ∀ d, rest'.head? = some d → isBlank d = true) (hsolid : solid rest' = solid rest) :
    Unended (line ++ rest') := by
  have hbreaks : ∀ {rest : Text}, (∀ d, rest.head? = some d → isBlank d = true) →
      ∀ d, rest.head? = some d → Breaks d := fun h d hd => .inr (h d hd)
  cases line with
  | nil =>
    have hblank := hrest '<' (head?_of_startsMarkup h.starts)
    cases hblank
  | cons c line =>
    refine ⟨?_, fun hprefix => ?_, ?_⟩
    · have hstarts := h.starts
      rw [List.cons_append, startsMarkup_append (hbreaks hrest)] at hstarts
      rw [List.cons_append, startsMarkup_append (hbreaks hrest'), hstarts]
    · apply h.notComment
      refine (prefix_of_prefix_append hprefix fun d hd hmem => ?_).trans (List.prefix_append ..)
      have hsign : ("<!--" : Text).all (!isBlank ·) = true := by decide
      have hsolid := List.all_eq_true.1 hsign d hmem
      rw [hrest' d hd] at hsolid
      cases hsolid
    · have hnoEnd := h.noEnd
      rw [List.cons_append, List.drop_succ_cons, List.drop_zero, ← tagLength?_solid (by simp)] at *
      rwa [solid_append, hsolid, ← solid_append]

theorem Unended.append {t w : Text} (h : Unended t) (hw : allBlank w = true) :
    Unended (t ++ w) := by
  rw [← List.append_nil t] at h
  refine h.move (by simp) (fun d hd => ?_) (solid_eq_nil_iff.2 hw)
  exact List.all_eq_true.1 hw d (List.mem_of_head? hd)

end Token

end Layout

end Wxml
