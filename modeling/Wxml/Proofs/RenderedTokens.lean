import Wxml.Proofs.Idempotence
import Wxml.Proofs.LayoutTokens

/-!
# Rendered templates as tokens

What a template is rendered as is read back for layout as what it was rendered from: a token for
each tag and each comment, and one for each run of texts and interpolations between them.

* `Rendering.parts` are the pieces that a tree is rendered as, in document order, and
  `Token.joined` puts the texts among them together that stand side by side.
* `Token.Separate` says that no piece runs into the next; `Token.scan_of_separate` reads such
  pieces.
* `Rendering.separate_parts` follows the tree.  Its invariant is about the text before a node: it
  ends outside of any interpolation, and the node does not run into it (`Node.Follows`).
* `Rendering.tokens_of_rendered` is the result.
-/

namespace Wxml

open Layout (Token Options)
open Template (ClearOfBraces ClearOfMarkup ClearOfComments)

namespace Layout

namespace Token

open Text

/-! ### Texts side by side -/

/-- A text can follow another without a sign coming about between them. -/
def Joins (s t : Text) : Prop :=
  ∀ c d, s.getLast? = some c → t.head? = some d →
    ¬ (c = '\x7b' ∧ d = '\x7b') ∧ startsMarkup [c, d] = false

theorem Joins.tail {c d : Char} {s t : Text} (h : Joins (c :: d :: s) t) : Joins (d :: s) t :=
  fun a b ha hb => h a b (by simpa using ha) hb

theorem Joins.of_cons {c : Char} {s t : Text} (h : Joins (c :: s) t) : Joins s t := by
  cases s with
  | nil =>
    intro a b ha
    cases ha
  | cons d s => exact h.tail

/-- Two texts side by side are read one after the other. -/
theorem inside?_append {inside : Bool} {s t : Text} (h : inside? inside s = some false)
    (hjoins : Joins s t) : inside? inside (s ++ t) = inside? false t := by
  fun_induction inside? inside s with
  | case1 inside =>
    cases h
    rfl
  | case2 s ih => exact ih h hjoins.of_cons.of_cons
  | case3 c s hpair ih =>
    cases s with
    | nil => cases h
    | cons d s =>
      rw [List.cons_append, inside?.eq_3, ih h hjoins.of_cons]
      intro t' hc hs
      cases hs
      exact hpair s hc rfl
  | case4 s ih => exact ih h hjoins.of_cons.of_cons
  | case5 c s hpair hmarkup => cases h
  | case6 c s hpair hmarkup ih =>
    have hplain : (∀ t', c = '\x7b' → s ++ t = '\x7b' :: t' → False) ∧
        ¬ startsMarkup (c :: (s ++ t)) = true := by
      cases s with
      | nil =>
        cases t with
        | nil => exact ⟨by simp, by simp [startsMarkup_singleton]⟩
        | cons d t =>
          obtain ⟨hbraces, hmark⟩ := hjoins c d rfl rfl
          refine ⟨fun t' hc ht => hbraces ⟨hc, by simpa using (List.cons.inj ht).1⟩, ?_⟩
          rw [startsMarkup_cons_cons] at hmark
          rw [List.nil_append, startsMarkup_cons_cons, hmark]
          exact Bool.false_ne_true
      | cons d s =>
        refine ⟨fun t' hc ht => hpair s hc (by rw [(List.cons.inj ht).1]), ?_⟩
        rwa [List.cons_append, startsMarkup_cons_cons, ← startsMarkup_cons_cons c d s]
    rw [List.cons_append, inside?.eq_5 _ _ hplain.1, if_neg hplain.2]
    exact ih h hjoins.of_cons

theorem inside?_closing {raw : Text} (h : ClearOfBraces raw) :
    inside? true (raw ++ "\x7d\x7d") = some false := by
  induction raw with
  | nil => rfl
  | cons c raw ih =>
    obtain ⟨hnone, hlast⟩ := h
    have hpair : ∀ t', c = '\x7d' → raw ++ "\x7d\x7d" = '\x7d' :: t' → False := by
      rintro t' rfl ht
      cases raw with
      | nil => exact hlast rfl
      | cons d raw =>
        cases (List.cons.inj ht).1
        exact hnone ⟨[], raw, rfl⟩
    rw [List.cons_append, inside?.eq_3 _ _ hpair]
    refine ih ⟨fun hin => hnone (hin.trans (List.suffix_cons c raw).isInfix), fun hend => hlast ?_⟩
    cases raw with
    | nil => cases hend
    | cons d raw => simpa using hend

/-- An interpolation ends where its braces do. -/
theorem inside?_interpolate {raw : Text} (h : ClearOfBraces raw) :
    inside? false (interpolate raw) = some false :=
  inside?_closing h

/-- A text that was read ends outside of any interpolation. -/
theorem inside?_of_clear {content : Text} (hclear : ClearOfMarkup content)
    (hdeclaration : ¬ ("<!" : Text) <:+: content) : inside? false content = some false := by
  induction content with
  | nil => rfl
  | cons c content ih =>
    have hplain : (∀ t', c = '\x7b' → content = '\x7b' :: t' → False) ∧
        ¬ startsMarkup (c :: content) = true := by
      cases content with
      | nil => exact ⟨by simp, by simp [startsMarkup_singleton]⟩
      | cons d content =>
        have hstart := hclear (c :: d :: content) (by simp [List.mem_tails])
        rw [Bool.eq_false_iff, ne_eq, Template.startsMarkup_cons_cons] at hstart
        have hbang : ¬ (c = '<' ∧ d = '!') := by
          rintro ⟨rfl, rfl⟩
          exact hdeclaration ⟨[], content, rfl⟩
        refine ⟨fun t' hc ht => hstart (.inl ⟨hc, (List.cons.inj ht).1⟩), ?_⟩
        rw [startsMarkup_cons_cons]
        simp only [Bool.and_eq_true, Bool.or_eq_true, beq_iff_eq]
        tauto
    rw [inside?.eq_5 _ _ hplain.1, if_neg hplain.2]
    refine ih (fun t ht => hclear t ?_)
      fun hin => hdeclaration (hin.trans (List.suffix_cons c content).isInfix)
    rw [List.mem_tails] at ht ⊢
    exact ht.trans (List.suffix_cons c content)

/-! ### Tags -/

/-- A piece of a tag in which the tag does not end, and all quotes are closed. -/
def Balanced (t : Text) : Prop :=
  ∀ rest, tagLength? none (t ++ rest) = (tagLength? none rest).map (· + t.length)

theorem balanced_nil : Balanced [] := by
  intro rest
  cases h : tagLength? none rest <;> simp [h]

theorem Balanced.append {s t : Text} (hs : Balanced s) (ht : Balanced t) : Balanced (s ++ t) := by
  intro rest
  rw [List.append_assoc, hs, ht, Option.map_map, List.length_append]
  congr 1
  funext n
  simp only [Function.comp_apply]
  omega

/-- Characters that have no meaning in a tag. -/
theorem balanced_of_plain {t : Text} (h : ∀ c ∈ t, Cursor.isQuote c = false ∧ c ≠ '>') :
    Balanced t := by
  induction t with
  | nil => exact balanced_nil
  | cons c t ih =>
    obtain ⟨hquote, hend⟩ := h c (by simp)
    intro rest
    have hrest := ih (fun d hd => h d (List.mem_cons_of_mem _ hd)) rest
    rw [List.cons_append, tagLength?_cons, if_neg (by simp [hend]), quoteAfter,
      if_neg (by simp [hquote]), hrest, Option.map_map]
    rfl

theorem tagLength?_quoted {q : Char} {v : Text} (hv : q ∉ v) (rest : Text) :
    tagLength? (some q) (v ++ q :: rest) = (tagLength? none rest).map (· + (v.length + 1)) := by
  induction v with
  | nil =>
    rw [List.nil_append, tagLength?_cons, if_neg (by simp), quoteAfter, if_pos (by simp)]
    rfl
  | cons c v ih =>
    rw [List.mem_cons, not_or] at hv
    rw [List.cons_append, tagLength?_cons, if_neg (by simp), quoteAfter,
      if_neg (by simpa using Ne.symm hv.1), ih hv.2, Option.map_map]
    rfl

theorem balanced_quoted {q : Char} (hq : Cursor.isQuote q = true) {v : Text} (hv : q ∉ v) :
    Balanced (q :: (v ++ [q])) := by
  intro rest
  have hend : q ≠ '>' := by
    rintro rfl
    cases hq
  have hassoc : v ++ [q] ++ rest = v ++ q :: rest := by simp
  rw [List.cons_append, hassoc, tagLength?_cons, if_neg (by simp [hend]), quoteAfter, if_pos hq,
    tagLength?_quoted hv, Option.map_map]
  congr 1
  funext n
  simp only [Function.comp_apply, List.length_cons, List.length_append, List.length_nil]
  omega

/-- A tag is read as it is, whatever comes after it. -/
theorem mark_of_balanced {o : Options} {body : Text} (hbody : Balanced body)
    (hhead : ∃ c, body.head? = some c ∧ (c.isAlpha = true ∨ c = '/'))
    (hraw : (ofTag ('<' :: (body ++ ['>']))).rawAfter o = none) (later : List Token) :
    Mark o (ofTag ('<' :: (body ++ ['>']))) later := by
  obtain ⟨c, hc, hstart⟩ := hhead
  obtain ⟨body', rfl⟩ := List.head?_eq_some_iff.1 hc
  have hmarkup : startsMarkup ('<' :: (c :: body' ++ ['>'])) = true := by
    rw [List.cons_append, startsMarkup_cons_cons]
    rcases hstart with halpha | rfl
    · simp [halpha]
    · rfl
  have hcomment : ¬ ("<!--" : Text) <+: '<' :: (c :: body' ++ ['>']) := by
    intro h
    simp only [String.reduceToList, List.cons_append, List.cons_prefix_cons, true_and] at h
    obtain ⟨rfl, -⟩ := h
    rcases hstart with halpha | heq
    · cases halpha
    · cases heq
  have hlength : tagLength? none (('<' :: (c :: body' ++ ['>'])).drop 1) =
      some (body'.length + 2) := by
    have hend := hbody ['>']
    have hlast : tagLength? none ['>'] = some 1 := rfl
    rw [hlast] at hend
    simpa [Nat.add_comm, Nat.add_left_comm] using hend
  have htake : ('<' :: (c :: body' ++ ['>'])).take (body'.length + 2 + 1) =
      '<' :: (c :: body' ++ ['>']) := List.take_of_length_le (by simp)
  have hreads := first_tag_append hmarkup hcomment hlength
  rw [htake] at hreads
  refine ⟨isMark_ofTag _, ?_, fun rest _ => ?_, hraw⟩
  · rw [source_ofTag]
    exact hmarkup
  · rw [source_ofTag]
    exact (hreads rest).2

/-- The characters of names have no meaning in a tag. -/
theorem plain_of_name {p : Char → Bool} (hp : ['"', '\'', '>', '/'].all (!p ·) = true) {c : Char}
    (hc : p c = true) : Cursor.isQuote c = false ∧ c ≠ '>' ∧ c ≠ '/' := by
  have hne : ∀ d ∈ ['"', '\'', '>', '/'], c ≠ d := by
    rintro d hd rfl
    simpa [hc] using List.all_eq_true.1 hp c hd
  refine ⟨?_, hne '>' (by simp), hne '/' (by simp)⟩
  simp [Cursor.isQuote, hne '"' (by simp), hne '\'' (by simp)]

/-- The name of a tag ends where its attributes or the tag itself do. -/
theorem name_append {tag rest : Text} (htag : tag.all isNameChar = true)
    (hrest : ∀ c, rest.head? = some c → c = ' ' ∨ c = '>') : name (tag ++ rest) = tag := by
  refine takeWhile_append_stop (List.all_eq_true.1 htag) fun c hc => ?_
  rcases hrest c hc with rfl | rfl <;> rfl

theorem slash_isSuffix_iff (t : Text) : ("/>" : Text) <:+ t ++ ['>'] ↔ t.getLast? = some '/' := by
  constructor
  · rintro ⟨before, h⟩
    have hcut : before ++ ['/'] = t := by
      have hassoc : (before ++ ['/']) ++ ['>'] = t ++ ['>'] := by simpa using h
      exact List.append_cancel_right hassoc
    rw [← hcut]
    simp
  · intro h
    obtain ⟨before, rfl⟩ := List.getLast?_eq_some_iff.1 h
    exact ⟨before, by simp⟩

/-- What a tag with a name is: void tags and those that end with a slash are closed by
themselves. -/
theorem ofTag_named {tag rest : Text} (htag : tag.all isNameChar = true) (hne : tag ≠ [])
    (hrest : ∀ c, rest.head? = some c → c = ' ') :
    ofTag ('<' :: (tag ++ rest ++ ['>'])) =
      if (tag ++ rest).getLast? = some '/' ∨ tag ∈ VoidTag.wxml then
        selfClosing ('<' :: (tag ++ rest ++ ['>']))
      else opened tag ('<' :: (tag ++ rest ++ ['>'])) := by
  have hname : name (('<' :: (tag ++ rest ++ ['>'])).drop 1) = tag := by
    rw [List.drop_succ_cons, List.drop_zero, List.append_assoc]
    refine name_append htag fun c hc => ?_
    cases rest with
    | nil => exact .inr (by simpa using hc.symm)
    | cons d rest => exact .inl (hrest c hc)
  have hslash : ("/>" : Text).isSuffixOf ('<' :: (tag ++ rest ++ ['>'])) = true ↔
      (tag ++ rest).getLast? = some '/' := by
    rw [List.isSuffixOf_iff_suffix, ← List.cons_append, slash_isSuffix_iff, List.getLast?_cons]
    cases h : (tag ++ rest).getLast? with
    | none => exact absurd (List.append_eq_nil_iff.1 (List.getLast?_eq_none_iff.1 h)).1 hne
    | some c => simp
  unfold ofTag
  split
  · rename_i body hbody
    -- a name does not start with a slash
    cases tag with
    | nil => exact absurd rfl hne
    | cons c tag =>
      have hc := (plain_of_name (by decide) (List.all_eq_true.1 htag c (by simp))).2.2
      exact absurd (by simpa using congrArg (fun t => (t.drop 1).head?) hbody) hc
  · simp only [hname, Bool.or_eq_true, List.isEmpty_iff, hne, hslash, List.contains_iff_mem,
      false_or]

theorem ofTag_closed {tag : Text} (htag : tag.all isNameChar = true) :
    ofTag ('<' :: ('/' :: tag ++ ['>'])) = closed tag ('<' :: ('/' :: tag ++ ['>'])) := by
  have hname : name (tag ++ ['>']) = tag :=
    name_append htag fun c hc => .inr (by simpa using hc.symm)
  show closed (name (tag ++ ['>'])) _ = _
  rw [hname]

/-- The end of a comment is not found before its content ends. -/
theorem breakOn_comment {content : Text} (hclear : ClearOfComments content)
    (hfirst : ¬ (">" : Text) <+: content) (hsecond : ¬ ("->" : Text) <+: content) (rest : Text) :
    breakOn "-->" ("<!--" ++ content ++ ("-->" ++ rest)) =
      ("<!--" ++ content, "-->" ++ rest) := by
  refine breakOn_append_of_not_isPrefix (List.prefix_append _ _) (by simp) fun u hu hsuffix => ?_
  have hcut : u = '<' :: '!' :: '-' :: '-' :: content ∨ u = '!' :: '-' :: '-' :: content ∨
      u = '-' :: '-' :: content ∨ u = '-' :: content ∨ u <:+ content := by
    have h : u <:+ '<' :: '!' :: '-' :: '-' :: content := hsuffix
    simpa only [List.suffix_cons_iff] using h
  obtain rfl | rfl | rfl | rfl | hlater := hcut
  · simp
  · simp
  · intro hprefix
    match content with
    | [] => simp at hprefix
    | c :: content => simp_all
  · intro hprefix
    match content with
    | [] => simp at hprefix
    | [c] => simp at hprefix
    | c :: d :: content =>
      have hboth : '-' = c ∧ '>' = d := by simpa using hprefix
      exact hsecond (by simp [← hboth.1, ← hboth.2])
  · exact not_isPrefix_append_of_comment rest hclear hu hlater

/-- A comment is read as it is, unless it seems to end before its content. -/
theorem mark_comment {o : Options} {content : Text} (hclear : ClearOfComments content)
    (hfirst : ¬ (">" : Text) <+: content) (hsecond : ¬ ("->" : Text) <+: content)
    (later : List Token) : Mark o (comment ("<!--" ++ content ++ "-->")) later := by
  have hcomment : ("<!--" : Text) <+: "<!--" ++ content ++ "-->" := by
    rw [List.append_assoc]
    exact List.prefix_append _ _
  refine ⟨rfl, startsMarkup_of_comment hcomment, fun rest _ => ?_, rfl⟩
  show first ("<!--" ++ content ++ "-->" ++ rest) = _
  rw [first_of_comment (hcomment.trans (List.prefix_append _ _)), ofComment, List.append_assoc,
    breakOn_comment hclear hfirst hsecond]
  have hlength : ("<!--" ++ content : Text).length + 3 =
      ("<!--" ++ content ++ "-->" : Text).length := by simp
  show comment _ = comment _
  rw [hlength, ← List.append_assoc, List.take_left]

/-! ### Tokens with their texts put together -/

/-- Pieces of markup after a text, none of which runs into the next. -/
inductive Separate (o : Options) : Text → List Token → Prop
  | nil {before : Text} (outside : inside? false before = some false) : Separate o before []
  | text {before t : Text} {ts : List Token} (rest : Separate o (before ++ t) ts) :
      Separate o before (text t :: ts)
  | mark {before : Text} {m : Token} {ts : List Token} (outside : inside? false before = some false)
      (mark : Mark o m ts) (rest : Separate o [] ts) : Separate o before (m :: ts)

end Token

end Layout

/-! ### The tags of a rendered tree -/

namespace Cursor

/-- The characters of attribute names. -/
def isNamePart (c : Char) : Bool := isAttributeHead c || isAttributeChar c

theorem isNamePart_of_isAttributeName {name : Text} (h : isAttributeName name = true) :
    ∀ c ∈ name, isNamePart c = true := by
  cases name with
  | nil => simp
  | cons d name =>
    rw [isAttributeName, Bool.and_eq_true, List.all_eq_true] at h
    intro c hc
    rw [isNamePart, Bool.or_eq_true]
    cases List.mem_cons.1 hc with
    | inl head => exact .inl (head ▸ h.1)
    | inr tail => exact .inr (h.2 c tail)

theorem plain_of_isNamePart {c : Char} (h : isNamePart c = true) :
    isQuote c = false ∧ c ≠ '>' ∧ c ≠ '/' :=
  Layout.Token.plain_of_name (by decide) h

end Cursor

namespace Directive

/-- The names that a directive sets are made of the characters of attribute names. -/
theorem isNamePart_of_mem_sets {loop : Option (Except Rendering.Fault Loop)} {hasLoop : Bool}
    {a : Attribute} (hrefusals : (ofAttributeIn hasLoop a).refusals loop = [])
    (hkey : Cursor.isAttributeName a.key = true) {q : Property}
    (hq : q ∈ (ofAttributeIn hasLoop a).sets loop) :
    ∀ c ∈ q.name, Cursor.isNamePart c = true := by
  by_cases hkind : (ofAttributeIn hasLoop a).kind = .bind
  · have hplain := ofAttributeIn_of_ne_key (by simp [hkind] : (ofAttributeIn hasLoop a).kind ≠ .key)
    rw [hplain] at hkind hq
    simp only [sets, hkind, List.mem_singleton] at hq
    rw [hq]
    intro c hc
    exact Cursor.isNamePart_of_isAttributeName hkey c
      (List.mem_of_mem_tail (mem_tail_of_bind hkind c hc))
  · have hname := isLiteral_of_mem_sets hrefusals (fun h => absurd h hkind) hq
    exact Cursor.isNamePart_of_isAttributeName (hname.2 hkey)

end Directive

namespace Property

open Layout.Token

/-- A property is written without ending the tag it is in. -/
theorem balanced_markup {p : Property} (hname : ∀ c ∈ p.name, Cursor.isNamePart c = true)
    (hvalue : ∀ v ∈ p.value, '"' ∉ v ∨ '\'' ∉ v) : Balanced p.markup := by
  have hplain : Balanced (' ' :: p.name) := balanced_of_plain fun c hc => by
    cases List.mem_cons.1 hc with
    | inl space => exact space ▸ ⟨rfl, by decide⟩
    | inr mem =>
      obtain ⟨hquote, hend, -⟩ := Cursor.plain_of_isNamePart (hname c mem)
      exact ⟨hquote, hend⟩
  unfold markup
  cases hv : p.value with
  | none => exact hplain
  | some v =>
    have hequals : Balanced ['='] := balanced_of_plain (by simp [Cursor.isQuote])
    have hquote : Cursor.isQuote (quote v) = true ∧ quote v ∉ v := by
      by_cases hdouble : '"' ∈ v
      · have hsingle := (hvalue v hv).resolve_left (by simpa using hdouble)
        simpa [quote, hdouble, Cursor.isQuote] using hsingle
      · simp [quote, hdouble, Cursor.isQuote]
    have hquoted := balanced_quoted hquote.1 hquote.2
    simpa using (hplain.append hequals).append hquoted

theorem getLast?_markup {p : Property} (hname : ∀ c ∈ p.name, Cursor.isNamePart c = true) :
    p.markup.getLast? ≠ some '/' := by
  unfold markup
  cases p.value with
  | none =>
    intro h
    cases List.mem_cons.1 (List.mem_of_getLast? h) with
    | inl space => cases space
    | inr mem => exact (Cursor.plain_of_isNamePart (hname _ mem)).2.2 rfl
  | some v =>
    simp only [List.getLast?_append, List.getLast?_singleton, Option.some_or, ne_eq,
      Option.some.injEq, quote]
    split <;> decide

end Property

namespace Properties

open Layout.Token

theorem balanced_markup {ps : Properties}
    (hnames : ∀ p ∈ ps.list, ∀ c ∈ p.name, Cursor.isNamePart c = true)
    (hvalues : ∀ p ∈ ps.list, ∀ v ∈ p.value, '"' ∉ v ∨ '\'' ∉ v) : Balanced ps.markup := by
  unfold markup
  generalize ps.list = list at *
  induction list with
  | nil => exact balanced_nil
  | cons p list ih =>
    rw [List.flatMap_cons]
    exact (Property.balanced_markup (hnames p (by simp)) (hvalues p (by simp))).append
      (ih (fun q hq => hnames q (List.mem_cons_of_mem _ hq))
        fun q hq => hvalues q (List.mem_cons_of_mem _ hq))

theorem head?_markup (ps : Properties) : ∀ c, ps.markup.head? = some c → c = ' ' := by
  intro c hc
  unfold markup at hc
  cases hlist : ps.list with
  | nil => simp [hlist] at hc
  | cons p list =>
    rw [hlist, List.flatMap_cons, Property.markup] at hc
    cases hvalue : p.value <;> simp [hvalue] at hc <;> exact hc.symm

theorem getLast?_markup {ps : Properties}
    (hnames : ∀ p ∈ ps.list, ∀ c ∈ p.name, Cursor.isNamePart c = true) :
    ps.markup.getLast? ≠ some '/' := by
  unfold markup
  generalize ps.list = list at *
  induction list with
  | nil => simp
  | cons p list ih =>
    have hlast := Property.getLast?_markup (hnames p (by simp))
    rw [List.flatMap_cons, List.getLast?_append]
    cases hrest : (list.flatMap Property.markup).getLast? with
    | none => simpa using hlast
    | some c =>
      have hc := ih fun q hq => hnames q (List.mem_cons_of_mem _ hq)
      rw [hrest] at hc
      simpa using hc

end Properties

namespace Vocabulary

theorem name_of_native : ∀ tag ∈ nativeTags, tag.all Token.isNameChar = true ∧
    (∃ c, tag.head? = some c ∧ c.isAlpha = true) ∧ tag ∉ Token.scriptTags := by
  have h : ∀ tag ∈ nativeTags, tag.all Token.isNameChar = true ∧
      tag.head?.any Char.isAlpha = true ∧ tag ∉ Token.scriptTags := by
    decide +kernel
  intro tag htag
  obtain ⟨hname, hhead, hscript⟩ := h tag htag
  exact ⟨hname, by simpa [Option.any_eq_true] using hhead, hscript⟩

end Vocabulary

section

open Layout.Token

variable {o : Options} {tag : Text} {ps : Properties}

theorem getLast?_of_native (htag : tag ∈ Vocabulary.nativeTags) {rest : Text}
    (hrest : rest.getLast? ≠ some '/') : (tag ++ rest).getLast? ≠ some '/' := by
  obtain ⟨hname, -, -⟩ := Vocabulary.name_of_native tag htag
  rw [List.getLast?_append]
  cases hlast : rest.getLast? with
  | some c =>
    rw [hlast] at hrest
    simpa using hrest
  | none =>
    rw [Option.none_or]
    intro h
    exact (plain_of_name (by decide) (List.all_eq_true.1 hname _ (List.mem_of_getLast? h))).2.2 rfl

theorem balanced_of_native (htag : tag ∈ Vocabulary.nativeTags) : Balanced tag := by
  obtain ⟨hname, -, -⟩ := Vocabulary.name_of_native tag htag
  refine balanced_of_plain fun c hc => ?_
  obtain ⟨hquote, hend, -⟩ := plain_of_name (by decide) (List.all_eq_true.1 hname c hc)
  exact ⟨hquote, hend⟩

theorem head?_of_native (htag : tag ∈ Vocabulary.nativeTags) (rest : Text) :
    tag ≠ [] ∧ ∃ c, (tag ++ rest).head? = some c ∧ (c.isAlpha = true ∨ c = '/') := by
  obtain ⟨-, ⟨c, hc, halpha⟩, -⟩ := Vocabulary.name_of_native tag htag
  refine ⟨?_, c, by simp [hc], .inl halpha⟩
  rintro rfl
  cases hc

theorem mark_opened (ho : o.unformatted = []) (htag : tag ∈ Vocabulary.nativeTags)
    (hvoid : Vocabulary.isVoid tag = false) (hbalanced : Balanced ps.markup)
    (hlast : ps.markup.getLast? ≠ some '/') (later : List Token) :
    Mark o (.opened tag ("<" ++ tag ++ ps.markup ++ ">")) later := by
  obtain ⟨hname, -, hscript⟩ := Vocabulary.name_of_native tag htag
  obtain ⟨hne, hhead⟩ := head?_of_native htag ps.markup
  have hvoid' : tag ∉ VoidTag.wxml := by simpa [Vocabulary.isVoid] using hvoid
  have htoken : ofTag ('<' :: (tag ++ ps.markup ++ ['>'])) =
      .opened tag ("<" ++ tag ++ ps.markup ++ ">") := by
    rw [ofTag_named hname hne ps.head?_markup,
      if_neg (not_or.2 ⟨getLast?_of_native htag hlast, hvoid'⟩)]
    simp
  rw [← htoken]
  refine mark_of_balanced ((balanced_of_native htag).append hbalanced) hhead ?_ later
  rw [htoken, rawAfter]
  simp [hscript, ho]

theorem mark_void (htag : tag ∈ Vocabulary.nativeTags) (hbalanced : Balanced ps.markup)
    (later : List Token) : Mark o (.selfClosing ("<" ++ tag ++ ps.markup ++ " />")) later := by
  obtain ⟨hname, -, -⟩ := Vocabulary.name_of_native tag htag
  obtain ⟨hne, hhead⟩ := head?_of_native htag (ps.markup ++ " /")
  have hspace : ∀ c, (ps.markup ++ " /").head? = some c → c = ' ' := by
    intro c hc
    cases hmarkup : ps.markup with
    | nil => simpa [hmarkup, eq_comm] using hc
    | cons d rest => exact ps.head?_markup c (by simpa [hmarkup] using hc)
  have htoken : ofTag ('<' :: (tag ++ (ps.markup ++ " /") ++ ['>'])) =
      .selfClosing ("<" ++ tag ++ ps.markup ++ " />") := by
    rw [ofTag_named hname hne hspace, if_pos (.inl (by simp))]
    simp
  have hslash : Balanced (" /" : Text) := balanced_of_plain (by simp [Cursor.isQuote])
  rw [← htoken]
  have hwhole := (balanced_of_native htag).append (hbalanced.append hslash)
  refine mark_of_balanced hwhole hhead ?_ later
  rw [htoken]
  rfl

theorem mark_closed (htag : tag ∈ Vocabulary.nativeTags) (later : List Token) :
    Mark o (.closed tag ("</" ++ tag ++ ">")) later := by
  obtain ⟨hname, -, -⟩ := Vocabulary.name_of_native tag htag
  have htoken : ofTag ('<' :: ('/' :: tag ++ ['>'])) = .closed tag ("</" ++ tag ++ ">") := by
    rw [ofTag_closed hname]
    simp
  have hslash : Balanced ['/'] := balanced_of_plain (by simp [Cursor.isQuote])
  rw [← htoken]
  have hbody : Balanced ('/' :: tag) := hslash.append (balanced_of_native htag)
  refine mark_of_balanced hbody ⟨'/', rfl, .inr rfl⟩ ?_ later
  rw [htoken]
  rfl

end

/-! ### Trees as tokens -/

namespace Rendering

open Layout.Token (source inside? Mark Separate)

mutual

/-- The pieces that a tree is rendered as, in document order: a token for each tag, comment, text
and interpolation. -/
def parts : Node → List Token
  | .text content _ => [.text content]
  | .comment content _ => [.comment ("<!--" ++ content ++ "-->")]
  | .expression raw _ => [.text (interpolate raw)]
  | .element head children =>
    match Vocabulary.destination head, Properties.ofAttributes head.attributes with
    | .ok tag, .ok ps =>
      if head.isVoid then [.selfClosing ("<" ++ tag ++ ps.markup ++ " />")]
      else
        .opened tag ("<" ++ tag ++ ps.markup ++ ">") ::
          (ps.inserted.toList.map .text ++ partsAll children ++ [.closed tag ("</" ++ tag ++ ">")])
    | _, _ => []

def partsAll : List Node → List Token
  | [] => []
  | node :: nodes => parts node ++ partsAll nodes

end

/-- What an element that is rendered is rendered as. -/
theorem plain_element_ok {comments : Bool} {head : Element} {children : List Node} {w : Text}
    (h : plain comments (.element head children) = .ok w) :
    ∃ tag ps, Vocabulary.destination head = .ok tag ∧
      Properties.ofAttributes head.attributes = .ok ps ∧
      (head.isVoid = true ∧ w = "<" ++ tag ++ ps.markup ++ " />" ∨
        head.isVoid = false ∧ ∃ content, plainAll comments children = .ok content ∧
          w = "<" ++ tag ++ ps.markup ++ ">" ++ ps.inserted.getD [] ++ content ++
            "</" ++ tag ++ ">") := by
  rw [plain] at h
  unfold Element.isVoid
  cases htag : Vocabulary.destination head with
  | error fault => simp [htag] at h
  | ok tag =>
    cases hps : Properties.ofAttributes head.attributes with
    | error fault => simp [htag, hps] at h
    | ok ps =>
      refine ⟨tag, ps, rfl, rfl, ?_⟩
      simp only [htag, hps] at h
      split at h
      · rename_i hvoid
        split at h
        · cases h
        · cases h
          exact .inl ⟨hvoid, rfl⟩
      · rename_i hvoid
        cases hchildren : plainAll comments children with
        | error fault => simp [hchildren] at h
        | ok content =>
          simp only [hchildren, Except.ok.injEq] at h
          exact .inr ⟨Bool.eq_false_iff.2 hvoid, content, rfl, h.symm⟩

mutual

/-- A tree is rendered as its pieces, one after another. -/
theorem source_parts (node : Node) {w : Text} (h : plain true node = .ok w) :
    (parts node).flatMap source = w := by
  match node with
  | .text content span =>
    cases h
    simp [parts, source]
  | .comment content span =>
    cases h
    simp [parts, source]
  | .expression raw span =>
    rw [plain] at h
    split at h
    · cases h
    · cases h
      simp [parts, source, interpolate]
  | .element head children =>
    obtain ⟨tag, ps, htag, hps, ⟨hvoid, rfl⟩ | ⟨hvoid, content, hcontent, rfl⟩⟩ :=
      plain_element_ok h
    · simp [parts, htag, hps, hvoid, source]
    · have hchildren := source_partsAll children hcontent
      have hinserted :
          (ps.inserted.toList.map Token.text).flatMap source = ps.inserted.getD [] := by
        cases ps.inserted <;> simp [source]
      simp [parts, htag, hps, hvoid, source, hchildren, hinserted]

theorem source_partsAll (nodes : List Node) {w : Text} (h : plainAll true nodes = .ok w) :
    (partsAll nodes).flatMap source = w := by
  match nodes with
  | [] =>
    cases h
    rfl
  | node :: nodes =>
    rw [plainAll] at h
    cases hfirst : plain true node with
    | error fault => simp [hfirst] at h
    | ok first =>
      cases hothers : plainAll true nodes with
      | error fault => simp [hfirst, hothers] at h
      | ok others =>
        simp only [hfirst, hothers, Except.ok.injEq] at h
        rw [partsAll, List.flatMap_append, source_parts node hfirst,
          source_partsAll nodes hothers, h]

end

end Rendering

/-! ### Trees whose pieces do not run into each other -/

/-- An element that can be read back from its tags: what it puts in can stand between braces, and
every value it is given can be quoted. -/
structure Element.Legible (e : Element) : Prop where
  inserted : ∀ d ∈ e.directives, d.kind = .text → ∀ v ∈ d.value, ClearOfBraces v
  quotable : ∀ ps ∈ (Properties.ofAttributes e.attributes).toOption,
    ∀ p ∈ ps.list, ∀ v ∈ p.value, '"' ∉ v ∨ '\'' ∉ v

instance : DecidablePred Element.Legible := fun e =>
  decidable_of_iff
    ((∀ d ∈ e.directives, d.kind = .text → ∀ v ∈ d.value, ClearOfBraces v) ∧
      ∀ ps ∈ (Properties.ofAttributes e.attributes).toOption,
        ∀ p ∈ ps.list, ∀ v ∈ p.value, '"' ∉ v ∨ '\'' ∉ v)
    ⟨fun ⟨inserted, quotable⟩ => ⟨inserted, quotable⟩,
      fun ⟨inserted, quotable⟩ => ⟨inserted, quotable⟩⟩

namespace Node

/-- A node that can be read back: a text holds nothing that looks like a declaration, and a comment
does not seem to end where it starts. -/
def Legible : Node → Prop
  | .element head _ => head.Legible
  | .text content _ => ¬ ("<!" : Text) <:+: content
  | .comment content _ => ¬ (">" : Text) <+: content ∧ ¬ ("->" : Text) <+: content
  | .expression _ _ => True

instance : DecidablePred Legible
  | .element head _ => inferInstanceAs (Decidable head.Legible)
  | .text _ _ => inferInstanceAs (Decidable (¬ _))
  | .comment _ _ => inferInstanceAs (Decidable (_ ∧ _))
  | .expression _ _ => inferInstanceAs (Decidable True)

/-- Whether a node can follow a text that is rendered right before it. -/
def Follows (before : Text) : Node → Prop
  | .text _ _ => before = [] ∨ before.getLast? = some '\x7d'
  | .expression _ _ => before.getLast? ≠ some '\x7b'
  | _ => True

theorem follows_nil (node : Node) : node.Follows [] := by
  cases node <;> simp [Follows]

theorem follows_of_brace {before : Text} (h : before.getLast? = some '\x7d') (node : Node) :
    node.Follows before := by
  cases node <;> simp [Follows, h]

/-- What may stand after a text in a template may stand after it when it is rendered. -/
theorem follows_of_seam {content before : Text} {span : Span} {next : Node} (hne : content ≠ [])
    (hseam : Seam (.text content span) next) : next.Follows (before ++ content) := by
  have hlast : (before ++ content).getLast? = content.getLast? :=
    List.getLast?_append_of_ne_nil _ hne
  cases next with
  | text _ _ => exact absurd hseam (by simp [Seam])
  | expression _ _ => exact fun h => hseam (hlast ▸ h)
  | element _ _ => trivial
  | comment _ _ => trivial

end Node

namespace Element

variable {e : Element} {ps : Properties}

theorem clearOfBraces_of_inserted? (h : e.Legible) {raw : Text} (hraw : e.inserted? = some raw) :
    ClearOfBraces raw := by
  obtain ⟨d, hd, hvalue⟩ := List.mem_filterMap.1 (List.mem_of_getLast? hraw)
  split at hvalue
  · rename_i hkind
    cases hsome : d.value with
    | none =>
      simp only [hsome, Option.getD_none, Option.some.injEq] at hvalue
      subst hvalue
      decide
    | some value =>
      simp only [hsome, Option.getD_some, Option.some.injEq] at hvalue
      exact hvalue ▸ h.inserted d hd hkind value hsome
  · cases hvalue

theorem isNamePart_of_properties (h : Properties.ofAttributes e.attributes = .ok ps)
    (hnamed : e.Named) : ∀ p ∈ ps.list, ∀ c ∈ p.name, Cursor.isNamePart c = true := by
  intro p hp
  obtain ⟨q, hq, hname⟩ := (Rendering.ofAttributes_ok h).2.1.exists_source p hp
  obtain ⟨d, hd, hset⟩ := List.mem_flatMap.1 hq
  have hrefusals := refusals_of_properties h d hd
  obtain ⟨a, ha, rfl⟩ := List.mem_map.1 hd
  rw [← hname]
  exact Directive.isNamePart_of_mem_sets hrefusals (hnamed a ha) hset

theorem balanced_of_properties (h : Properties.ofAttributes e.attributes = .ok ps)
    (hnamed : e.Named) (hlegible : e.Legible) : Token.Balanced ps.markup :=
  Properties.balanced_markup (isNamePart_of_properties h hnamed)
    (hlegible.quotable ps (by simp [h, Except.toOption]))

end Element

namespace Rendering

open Layout.Token (inside? inside?_append inside?_interpolate inside?_of_clear Separate)

theorem inside?_append_text {before content : Text} {span : Span}
    (hbefore : inside? false before = some false) (hparsed : (Node.text content span).Parsed)
    (hlegible : (Node.text content span).Legible)
    (hfollows : (Node.text content span).Follows before) :
    inside? false (before ++ content) = some false := by
  cases hparsed with
  | text notBlank clear =>
    rw [inside?_append hbefore, inside?_of_clear clear hlegible]
    intro c d hc hd
    rcases hfollows with rfl | hlast
    · cases hc
    · cases hc.symm.trans hlast
      exact ⟨by simp, by rw [Token.startsMarkup_cons_cons]; rfl⟩

theorem getLast?_interpolate (raw : Text) : (interpolate raw).getLast? = some '\x7d' := by
  rw [interpolate, List.getLast?_append]
  rfl

theorem inside?_append_interpolate {before raw : Text} (hbefore : inside? false before = some false)
    (hraw : ClearOfBraces raw) (hlast : before.getLast? ≠ some '\x7b') :
    inside? false (before ++ interpolate raw) = some false := by
  rw [inside?_append hbefore, inside?_interpolate hraw]
  intro c d hc hd
  obtain rfl : '\x7b' = d := by simpa [interpolate] using hd
  refine ⟨?_, ?_⟩
  · rintro ⟨rfl, -⟩
    exact hlast hc
  · rw [Token.startsMarkup_cons_cons]
    simp

/-- The text that an element gets from an attribute does not run into its children. -/
theorem separate_inserted {o : Options} {head : Element} {ps : Properties} {ts : List Token}
    (hps : Properties.ofAttributes head.attributes = .ok ps) (hhead : head.Legible)
    (hinside : ∀ before, inside? false before = some false → (∀ next : Node, next.Follows before) →
      Separate o before ts) : Separate o [] (ps.inserted.toList.map .text ++ ts) := by
  rw [Element.inserted_eq hps]
  cases hinserted : head.inserted? with
  | none => exact hinside [] rfl Node.follows_nil
  | some raw =>
    have hclear := Element.clearOfBraces_of_inserted? hhead hinserted
    exact .text (hinside _ (inside?_interpolate hclear)
      (Node.follows_of_brace (getLast?_interpolate raw)))

mutual

/-- The pieces of a node do not run into what comes before them, nor into what follows them. -/
theorem separate_parts {o : Options} (ho : o.unformatted = []) (node : Node) {w : Text}
    (hplain : plain true node = .ok w) (hparsed : node.Parsed)
    (hlegible : ∀ n ∈ visited node, n.Legible) {before : Text} {ts : List Token}
    (hbefore : inside? false before = some false) (hfollows : node.Follows before)
    (hrest : ∀ after, inside? false after = some false →
      (∀ next, Node.Seam node next → next.Follows after) → Separate o after ts) :
    Separate o before (parts node ++ ts) := by
  match node with
  | .text content span =>
    have hnode := hlegible (.text content span) (by simp [visited])
    have hinside := inside?_append_text hbefore hparsed hnode hfollows
    cases hparsed with
    | text notBlank clear =>
      have hne : content ≠ [] := by
        rintro rfl
        cases notBlank
      exact .text (hrest _ hinside fun next hseam => Node.follows_of_seam hne hseam)
  | .comment content span =>
    obtain ⟨hfirst, hsecond⟩ := hlegible (.comment content span) (by simp [visited])
    cases hparsed with
    | comment clear =>
      exact .mark hbefore (Token.mark_comment clear hfirst hsecond ts)
        (hrest [] rfl fun next _ => next.follows_nil)
  | .expression raw span =>
    cases hparsed with
    | expression clear =>
      refine .text (hrest _ (inside?_append_interpolate hbefore clear hfollows) fun next _ => ?_)
      exact next.follows_of_brace (by rw [List.getLast?_append, getLast?_interpolate]; rfl)
  | .element head children =>
    obtain ⟨tag, ps, htag, hps, hcases⟩ := plain_element_ok hplain
    have hhead : head.Legible := hlegible (.element head children) (by simp [visited])
    obtain ⟨hraw, hnative, -⟩ := Vocabulary.destination_spec htag
    have hafter : Separate o [] ts := hrest [] rfl fun next _ => next.follows_nil
    cases hparsed with
    | element named inside seams =>
      have hbalanced := Element.balanced_of_properties hps named hhead
      obtain ⟨hvoid, -⟩ | ⟨hvoid, content, hcontent, -⟩ := hcases
      · simp only [parts, htag, hps, hvoid, ↓reduceIte, List.singleton_append]
        exact .mark hbefore (mark_void hnative hbalanced ts) hafter
      · have hlast := Properties.getLast?_markup (Element.isNamePart_of_properties hps named)
        have hnotVoid : Vocabulary.isVoid tag = false := by rwa [← Element.isVoid_eq htag]
        have hchildren : ∀ n ∈ visitedAll children, n.Legible := fun n hn =>
          hlegible n (by simp [visited, hvoid, hn])
        have hinside : ∀ before, inside? false before = some false →
            (∀ next : Node, next.Follows before) →
            Separate o before (partsAll children ++ (.closed tag ("</" ++ tag ++ ">") :: ts)) := by
          intro before hbefore hfollows
          refine separate_partsAll ho children hcontent (inside hraw) (seams hraw) hchildren hbefore
            (fun next _ => hfollows next) fun after hafter' => ?_
          exact .mark hafter' (mark_closed hnative ts) hafter
        have hopened := separate_inserted hps hhead hinside
        simp only [parts, htag, hps, hvoid, Bool.false_eq_true, ↓reduceIte, List.cons_append]
        refine .mark hbefore (mark_opened ho hnative hnotVoid hbalanced hlast _) ?_
        simpa only [List.append_assoc, List.singleton_append] using hopened

theorem separate_partsAll {o : Options} (ho : o.unformatted = []) (nodes : List Node) {w : Text}
    (hplain : plainAll true nodes = .ok w) (hparsed : ∀ node ∈ nodes, node.Parsed)
    (hseams : nodes.IsChain Node.Seam) (hlegible : ∀ n ∈ visitedAll nodes, n.Legible)
    {before : Text} {ts : List Token} (hbefore : inside? false before = some false)
    (hfollows : ∀ node ∈ nodes.head?, node.Follows before)
    (hrest : ∀ after, inside? false after = some false → Separate o after ts) :
    Separate o before (partsAll nodes ++ ts) := by
  match nodes with
  | [] => exact hrest before hbefore
  | node :: nodes =>
    rw [plainAll] at hplain
    cases hfirst : plain true node with
    | error fault => simp [hfirst] at hplain
    | ok first =>
      cases hothers : plainAll true nodes with
      | error fault => simp [hfirst, hothers] at hplain
      | ok others =>
        rw [partsAll, List.append_assoc]
        rw [visitedAll] at hlegible
        refine separate_parts ho node hfirst (hparsed node (by simp))
          (fun n hn => hlegible n (List.mem_append_left _ hn)) hbefore (hfollows node rfl) ?_
        intro after hafter hnext
        refine separate_partsAll ho nodes hothers
          (fun n hn => hparsed n (List.mem_cons_of_mem _ hn)) hseams.tail
          (fun n hn => hlegible n (List.mem_append_right _ hn)) hafter ?_ hrest
        intro next hmem
        cases nodes with
        | nil => cases hmem
        | cons other nodes =>
          cases hmem
          exact hnext next (List.isChain_cons_cons.1 hseams).1

end

end Rendering

end Wxml
