import Wxml.Proofs.Placement

/-!
# The content of a block, piece by piece

In the content of a block only comments and tags of the block's own name count; they are its signs
(`Body.IsSign`).  `Body.length` is described on a content that is put together from known pieces,
`u ++ rest`: `length_append_of_plain` for text without a sign, and one statement each for a comment,
a closing tag, an opening tag and a self-closing tag.  `length_append_of_clear` puts together what
they say about a content without any sign before its closing tag.
-/

namespace Wxml

namespace Body

/-! ### Names -/

/-- A text without letters is the same in any case. -/
theorem eq_of_lower {s t : Text} (h : Text.lower s = Text.lower t)
    (ht : t.all (fun c => !c.isLower && c.toLower == c) = true) : s = t := by
  induction s generalizing t with
  | nil =>
    cases t with
    | nil => rfl
    | cons d t => cases h
  | cons c s ih =>
    cases t with
    | nil => cases h
    | cons d t =>
      simp only [List.all_cons, Bool.and_eq_true, Bool.not_eq_true', beq_iff_eq] at ht
      obtain ⟨⟨hd, hlow⟩, ht⟩ := ht
      have hc : c.toLower = d := (List.cons.inj h).1.trans hlow
      rw [Template.eq_of_toLower hc hd, ih (List.cons.inj h).2 (by simpa using ht)]

theorem length_eq_of_lower {s t : Text} (h : Text.lower s = Text.lower t) :
    s.length = t.length := by
  simpa [Text.lower] using congrArg List.length h

/-- A tag starts with its name in any case, and the name ends there. -/
theorem startsTag_iff {pattern t : Text} :
    startsTag pattern t = true ↔
      ∃ name rest, t = name ++ rest ∧ Text.lower name = Text.lower pattern ∧
        endsName rest = true := by
  rw [startsTag, Bool.and_eq_true, Text.sameIgnoringCase, beq_iff_eq]
  constructor
  · rintro ⟨hname, hend⟩
    exact ⟨_, _, (List.take_append_drop _ t).symm, hname, hend⟩
  · rintro ⟨name, rest, rfl, hname, hend⟩
    rw [← length_eq_of_lower hname, List.take_left, List.drop_left]
    exact ⟨hname, hend⟩

/-- A tag starts with its marks, and its name in any case. -/
theorem exists_of_startsTag {mark tag t : Text}
    (hmark : mark.all (fun c => !c.isLower && c.toLower == c) = true)
    (h : startsTag (mark ++ tag) t = true) :
    ∃ name rest, t = mark ++ (name ++ rest) ∧ Text.lower name = Text.lower tag ∧
      endsName rest = true := by
  obtain ⟨found, rest, rfl, hfound, hend⟩ := startsTag_iff.1 h
  rw [Text.lower, Text.lower, List.map_append] at hfound
  obtain ⟨start, name, rfl, hstart, hname⟩ := List.map_eq_append_iff.1 hfound
  rw [eq_of_lower hstart hmark, List.append_assoc]
  exact ⟨name, rest, rfl, hname, hend⟩

theorem endsName_append {s : Text} (hs : s ≠ []) (t : Text) : endsName (s ++ t) = endsName s := by
  cases s with
  | nil => exact absurd rfl hs
  | cons c s => rfl

/-- No character but a letter becomes a letter, and no letter anything else. -/
theorem mem_lower_iff {c : Char} (hc : c.isLower = false) (hlow : c.toLower = c) (t : Text) :
    c ∈ Text.lower t ↔ c ∈ t := by
  constructor
  · intro h
    obtain ⟨d, hd, hdc⟩ := List.mem_map.1 h
    exact Template.eq_of_toLower hdc hc ▸ hd
  · intro h
    exact List.mem_map.2 ⟨c, h, hlow⟩

/-! ### Signs -/

/-- A comment, or a tag of the block's own name, starts here. -/
def IsSign (tag t : Text) : Prop :=
  ("<!--" : Text) <+: t ∨ startsTag ("</" ++ tag) t = true ∨ startsTag ("<" ++ tag) t = true

instance (tag t : Text) : Decidable (IsSign tag t) := inferInstanceAs (Decidable (_ ∨ _))

/-- A tag with one `<`, at its start, ends before the next one. -/
theorem startsTag_of_append {pattern u rest : Text} (hpattern : '<' ∉ pattern) (hu : u ≠ [])
    (h : startsTag ('<' :: pattern) (u ++ '<' :: rest) = true) :
    startsTag ('<' :: pattern) u = true := by
  obtain ⟨name, after, hcut, hname, hend⟩ := startsTag_iff.1 h
  cases name with
  | nil => cases hname
  | cons c name =>
    have hclear : '<' ∉ name := by
      intro hmem
      have hlower : '<' ∈ Text.lower name := (mem_lower_iff (by decide) (by decide) _).2 hmem
      have htail : Text.lower name = Text.lower pattern := (List.cons.inj hname).2
      rw [htail, mem_lower_iff (by decide) (by decide)] at hlower
      exact hpattern hlower
    cases u with
    | nil => exact absurd rfl hu
    | cons d u =>
      simp only [List.cons_append, List.cons.injEq] at hcut
      obtain ⟨rfl, hcut⟩ := hcut
      rcases List.append_eq_append_iff.1 hcut with ⟨more, hmore, hafter⟩ | ⟨more, rfl, hafter⟩
      · cases more with
        | nil =>
          rw [List.nil_append] at hafter
          rw [← hafter] at hend
          cases hend
        | cons e more =>
          obtain ⟨rfl, -⟩ := List.cons.inj hafter
          exact absurd (by simp [hmore]) hclear
      · cases more with
        | nil =>
          rw [hafter] at hend
          cases hend
        | cons e more =>
          rw [hafter, endsName_append (by simp)] at hend
          exact startsTag_iff.2 ⟨_, _, rfl, hname, hend⟩

/-- A sign does not reach over a `<`. -/
theorem isSign_of_append {tag u rest : Text} (htag : '<' ∉ tag) (hu : u ≠ [])
    (hrest : rest.head? = some '<') (h : IsSign tag (u ++ rest)) : IsSign tag u := by
  obtain ⟨rest', rfl⟩ := List.head?_eq_some_iff.1 hrest
  rcases h with hcomment | hclosing | hopening
  · left
    cases u with
    | nil => exact absurd rfl hu
    | cons d u =>
      have hparts : '<' = d ∧ ("!--" : Text) <+: u ++ '<' :: rest' :=
        List.cons_prefix_cons.1 hcomment
      exact List.cons_prefix_cons.2 ⟨hparts.1,
        Text.prefix_of_prefix_append hparts.2 (Text.forall_head?_cons (by decide))⟩
  · have hslash : '<' ∉ '/' :: tag := by simp [htag]
    exact .inr (.inl (startsTag_of_append hslash hu hclosing))
  · exact .inr (.inr (startsTag_of_append htag hu hopening))

/-! ### Pieces -/

variable {tag : Text} (depth : Nat)

theorem ofText_of_not_isSign {t : Text} (h : ¬ IsSign tag t) :
    Piece.ofText tag t = (.plain, 0) := by
  rw [IsSign, not_or, not_or] at h
  rw [Piece.ofText, if_neg (by rw [List.isPrefixOf_iff_prefix]; exact h.1), if_neg h.2.1,
    if_neg h.2.2]

/-- Text in which no sign starts. -/
theorem length_append_of_plain {u rest : Text}
    (h : ∀ v, v ≠ [] → v <:+ u → ¬ IsSign tag (v ++ rest)) :
    length tag depth (u ++ rest) = u.length + length tag depth rest := by
  induction u with
  | nil => simp
  | cons c u ih =>
    have hfirst := h (c :: u) (by simp) (List.suffix_refl _)
    rw [List.cons_append] at hfirst ⊢
    rw [length, ofText_of_not_isSign hfirst]
    simp only [List.drop_zero, List.length_cons]
    rw [ih fun v hv hsuffix => h v hv (hsuffix.trans (List.suffix_cons c u))]
    omega

theorem length_append_of_comment {content : Text} (hcontent : ¬ ("-->" : Text) <:+: content)
    (rest : Text) :
    length tag depth ("<!--" ++ (content ++ "-->") ++ rest) =
      ("<!--" ++ (content ++ "-->") : Text).length + length tag depth rest := by
  have htext : ("<!--" ++ (content ++ "-->") ++ rest : Text) =
      '<' :: ("!--" ++ (content ++ ("-->" ++ rest))) := by simp
  obtain ⟨k, hcomment⟩ := Cursor.comment?_append 0 rest hcontent
  have hpiece : Piece.ofText tag ('<' :: ("!--" ++ (content ++ ("-->" ++ rest)))) =
      (.comment, content.length + 6) := by
    have hstart : (Cursor.start ('<' :: ("!--" ++ (content ++ ("-->" ++ rest))))).comment? =
        some (content, ⟨k, rest⟩) := hcomment
    rw [Piece.ofText, if_pos (by rw [List.isPrefixOf_iff_prefix]; exact ⟨_, rfl⟩), hstart]
  have hdrop : ("!--" ++ (content ++ ("-->" ++ rest)) : Text).drop (content.length + 6) = rest := by
    have hlength : content.length + 6 = ("!--" ++ (content ++ "-->") : Text).length := by simp
    have hassoc : ("!--" ++ (content ++ ("-->" ++ rest)) : Text) =
        ("!--" ++ (content ++ "-->")) ++ rest := by simp
    rw [hlength, hassoc, List.drop_left]
  have hlength : ("<!--" ++ (content ++ "-->") : Text).length = content.length + 6 + 1 := by simp
  rw [htext, hlength, length, hpiece]
  simp only [hdrop]

section

variable {name rest : Text} (hname : Text.lower name = Text.lower tag) (hend : endsName rest = true)

include hname hend

theorem ofText_closing :
    Piece.ofText tag ("</" ++ name ++ rest) = (.closing, name.length + 1) := by
  have hcomment : ¬ ("<!--" : Text).isPrefixOf ("</" ++ name ++ rest) = true := by
    rw [List.isPrefixOf_iff_prefix]
    simp
  have hstarts : startsTag ("</" ++ tag) ("</" ++ name ++ rest) = true :=
    startsTag_iff.2 ⟨_, _, rfl, by simpa [Text.lower] using hname, hend⟩
  rw [Piece.ofText, if_neg hcomment, if_pos hstarts, length_eq_of_lower hname]

/-- The closing tag that ends the content. -/
theorem length_closing_zero : length tag 0 ("</" ++ name ++ rest) = 0 := by
  have htext : ("</" ++ name ++ rest : Text) = '<' :: ('/' :: (name ++ rest)) := by simp
  have hpiece := ofText_closing hname hend
  rw [htext] at hpiece ⊢
  rw [length, hpiece]

/-- The closing tag of an element inside the content. -/
theorem length_closing_succ :
    length tag (depth + 1) ("</" ++ name ++ rest) = name.length + 2 + length tag depth rest := by
  have htext : ("</" ++ name ++ rest : Text) = '<' :: ('/' :: (name ++ rest)) := by simp
  have hpiece := ofText_closing hname hend
  rw [htext] at hpiece ⊢
  rw [length, hpiece]
  simp

end

/-! ### Opening tags -/

/-- The rest of an opening tag after its name, up to its first `>` outside of quotes, if every quote
in it is closed; the tag is self-closing or not. -/
inductive TagTail : Text → Bool → Prop
  | last : TagTail ['>'] false
  | slash : TagTail ['/', '>'] true
  | char {c : Char} {t : Text} {selfClosing : Bool} (notQuote : Cursor.isQuote c = false)
      (notEnd : c ≠ '>') (notSlash : ¬ (c = '/' ∧ t.head? = some '>'))
      (rest : TagTail t selfClosing) : TagTail (c :: t) selfClosing
  | quoted {q : Char} {value t : Text} {selfClosing : Bool} (quote : Cursor.isQuote q = true)
      (clear : q ∉ value) (rest : TagTail t selfClosing) :
      TagTail (q :: (value ++ q :: t)) selfClosing

/-- The rest of an opening tag as it is passed over if `after` follows it.  A quote that is closed
nowhere, not even in `after`, is an ordinary character. -/
inductive TailBefore (after : Text) : Text → Bool → Prop
  | last : TailBefore after ['>'] false
  | slash : TailBefore after ['/', '>'] true
  | char {c : Char} {t : Text} {selfClosing : Bool} (notQuote : Cursor.isQuote c = false)
      (notEnd : c ≠ '>') (notSlash : ¬ (c = '/' ∧ t.head? = some '>'))
      (rest : TailBefore after t selfClosing) : TailBefore after (c :: t) selfClosing
  | quoted {q : Char} {value t : Text} {selfClosing : Bool} (quote : Cursor.isQuote q = true)
      (clear : q ∉ value) (rest : TailBefore after t selfClosing) :
      TailBefore after (q :: (value ++ q :: t)) selfClosing
  | unclosed {q : Char} {t : Text} {selfClosing : Bool} (quote : Cursor.isQuote q = true)
      (never : q ∉ t ++ after) (rest : TailBefore after t selfClosing) :
      TailBefore after (q :: t) selfClosing

theorem TagTail.before {t : Text} {selfClosing : Bool} (h : TagTail t selfClosing) (after : Text) :
    TailBefore after t selfClosing := by
  induction h with
  | last => exact .last
  | slash => exact .slash
  | char notQuote notEnd notSlash _ ih => exact .char notQuote notEnd notSlash ih
  | quoted quote clear _ ih => exact .quoted quote clear ih

theorem TailBefore.ne_nil {after t : Text} {selfClosing : Bool}
    (h : TailBefore after t selfClosing) : t ≠ [] := by
  cases h <;> simp

/-- Characters that do not count before the rest of a tag. -/
theorem TagTail.append {u t : Text} {selfClosing : Bool}
    (hu : u.all (fun c => !Cursor.isQuote c && c != '>' && c != '/') = true)
    (h : TagTail t selfClosing) : TagTail (u ++ t) selfClosing := by
  induction u with
  | nil => exact h
  | cons c u ih =>
    simp only [List.all_cons, Bool.and_eq_true, Bool.not_eq_true', bne_iff_ne] at hu
    obtain ⟨⟨⟨hquote, hend⟩, hslash⟩, hu⟩ := hu
    exact .char hquote hend (fun hboth => hslash hboth.1) (ih (by simpa using hu))

theorem tagRest_quoted {q : Char} {value : Text} (hvalue : q ∉ value) (t : Text) :
    tagRest (some q) (value ++ q :: t) =
      ((tagRest none t).1 + value.length + 1, (tagRest none t).2) := by
  induction value with
  | nil => simp [tagRest]
  | cons c value ih =>
    rw [List.mem_cons, not_or] at hvalue
    rw [List.cons_append, tagRest]
    simp only [beq_iff_eq, Ne.symm hvalue.1, ↓reduceIte, ih hvalue.2, List.length_cons]
    exact Prod.ext (by simp only; omega) rfl

/-- The rest of a tag is passed over as it is. -/
theorem TailBefore.tagRest_append {t after : Text} {selfClosing : Bool}
    (h : TailBefore after t selfClosing) :
    tagRest none (t ++ after) = (t.length, selfClosing) := by
  induction h with
  | last => rfl
  | slash => rfl
  | @char c t selfClosing notQuote notEnd notSlash tail ih =>
    have hslash : (c == '/' && (t ++ after).head? == some '>') = false := by
      obtain ⟨d, t', rfl⟩ := List.exists_cons_of_ne_nil tail.ne_nil
      rw [Bool.eq_false_iff]
      simpa using notSlash
    rw [List.cons_append, tagRest]
    simp only [notQuote, Bool.false_eq_true, ↓reduceIte, beq_iff_eq, notEnd, hslash, ih,
      List.length_cons]
  | @quoted q value t selfClosing quote clear tail ih =>
    have hassoc : q :: (value ++ q :: t) ++ after = q :: (value ++ q :: (t ++ after)) := by simp
    rw [hassoc, tagRest]
    simp only [quote, ↓reduceIte, List.contains_append, List.contains_cons, beq_self_eq_true,
      Bool.true_or, Bool.or_true, tagRest_quoted clear, ih, List.length_cons, List.length_append]
    exact Prod.ext (by simp only; omega) rfl
  | @unclosed q t selfClosing quote never tail ih =>
    have hnever : (t ++ after).contains q = false := by simpa using never
    rw [List.cons_append, tagRest]
    simp only [quote, ↓reduceIte, hnever, Bool.false_eq_true, ih, List.length_cons]

section

variable {name tail rest : Text} {selfClosing : Bool} (hname : Text.lower name = Text.lower tag)
  (hend : endsName tail = true) (htail : TailBefore rest tail selfClosing) {c : Char}
  (hc : name.head? = some c) (hletter : c ≠ '/' ∧ c ≠ '!')

include hname hend htail hc hletter

theorem ofText_opening :
    Piece.ofText tag ('<' :: (name ++ (tail ++ rest))) =
      (if selfClosing then .selfClosing else .opening, name.length + tail.length) := by
  obtain ⟨name', rfl⟩ := List.head?_eq_some_iff.1 hc
  have hcomment : ¬ ("<!--" : Text).isPrefixOf ('<' :: (c :: name' ++ (tail ++ rest))) = true := by
    rw [List.isPrefixOf_iff_prefix]
    intro h
    have hbang : '!' = c := (List.cons_prefix_cons.1 (List.cons_prefix_cons.1 h).2).1
    exact hletter.2 hbang.symm
  have hclosing : ¬ startsTag ("</" ++ tag) ('<' :: (c :: name' ++ (tail ++ rest))) = true := by
    intro h
    obtain ⟨other, after, hcut, hother, -⟩ := startsTag_iff.1 h
    match other with
    | [] => cases hother
    | [a] => cases (List.cons.inj hother).2
    | a :: b :: other =>
      have hb : b.toLower = '/' := (List.cons.inj (List.cons.inj hother).2).1
      simp only [List.cons_append, List.cons.injEq] at hcut
      exact hletter.1 (hcut.2.1.trans (Template.eq_of_toLower hb (by decide)))
  have hstarts : startsTag ("<" ++ tag) ('<' :: (c :: name' ++ (tail ++ rest))) = true :=
    startsTag_iff.2 ⟨'<' :: (c :: name'), tail ++ rest, rfl, by simpa [Text.lower] using hname,
      by rwa [endsName_append htail.ne_nil]⟩
  have hdrop : ('<' :: (c :: name' ++ (tail ++ rest))).drop (tag.length + 1) = tail ++ rest := by
    rw [List.drop_succ_cons, ← length_eq_of_lower hname, List.drop_left]
  rw [Piece.ofText, if_neg hcomment, if_neg hclosing, if_pos hstarts, hdrop,
    htail.tagRest_append, length_eq_of_lower hname]

/-- An opening tag in the content leads one deeper, unless it is self-closing. -/
theorem length_opening :
    length tag depth ('<' :: (name ++ (tail ++ rest))) =
      name.length + tail.length + 1 +
        length tag (if selfClosing then depth else depth + 1) rest := by
  have hdrop : (name ++ (tail ++ rest)).drop (name.length + tail.length) = rest := by
    rw [← List.append_assoc, ← List.length_append, List.drop_left]
  rw [length, ofText_opening hname hend htail hc hletter]
  cases selfClosing with
  | true => simp [hdrop]
  | false => simp [hdrop]

end

/-! ### Content without signs -/

/-- Content without a comment, or a tag of the block's own name in any case, ends at the closing
tag. -/
theorem length_append_of_clear {name content : Text} (hname : '<' ∉ name)
    (hcomment : ¬ ("<!--" : Text) <:+: content)
    (hclosing : ¬ Text.lower ("</" ++ name) <:+: Text.lower content)
    (hopening : ¬ Text.lower ("<" ++ name) <:+: Text.lower content) (rest : Text) :
    length name 0 (content ++ ("</" ++ name ++ '>' :: rest)) = content.length := by
  have hplain : ∀ v, v ≠ [] → v <:+ content →
      ¬ IsSign name (v ++ ("</" ++ name ++ '>' :: rest)) := by
    intro v hv hsuffix hsign
    have htag : ∀ pattern, startsTag pattern v = true →
        Text.lower pattern <:+: Text.lower content := by
      intro pattern hstarts
      obtain ⟨found, after, rfl, hfound, -⟩ := startsTag_iff.1 hstarts
      obtain ⟨before, rfl⟩ := hsuffix
      exact ⟨Text.lower before, Text.lower after, by rw [← hfound]; simp [Text.lower]⟩
    rcases isSign_of_append hname hv rfl hsign with h | h | h
    · exact hcomment (h.isInfix.trans hsuffix.isInfix)
    · exact hclosing (htag _ h)
    · exact hopening (htag _ h)
  rw [length_append_of_plain 0 hplain, length_closing_zero rfl rfl]
  rfl

end Body

end Wxml
