import Wxml.Proofs.ComponentPrinting
import Wxml.Proofs.Parsed

/-!
# Where a block ends

`Body.Balanced tag body rest` says that the tags of the block's own name in a body are balanced if
`rest` follows it.  It is a grammar: a body is comments, self-closing tags, elements with a balanced
body of their own, and other characters.  Whether a character counts may depend on what follows it,
so `rest` is part of the grammar.

* `Balanced.length_append`: a balanced body is passed over as a whole, at any depth.
* `leaves_length`: what is passed over on the way out of `depth` open elements is `depth + 1`
  balanced bodies with closing tags between them (`Levels`), unless the end of the source comes
  first.
* `Cursor.body_balanced` is the result: the content of a block is the balanced body before its
  closing tag.
-/

namespace Wxml

namespace Body

/-! ### The grammar -/

/-- A text starts with a closing tag of a name, in any case, up to the end of the name. -/
def IsClosing (tag t : Text) : Prop :=
  ∃ name after, t = "</" ++ (name ++ after) ∧ Text.lower name = Text.lower tag ∧
    endsName after = true

/-- The tags of the block's own name in a body are balanced, if `rest` follows it.  The character
after the name in a closing tag is the first of what follows. -/
inductive Balanced (tag : Text) : (body rest : Text) → Prop
  | nil {rest : Text} : Balanced tag [] rest
  | comment {content body rest : Text} (clear : ¬ ("-->" : Text) <:+: content)
      (more : Balanced tag body rest) :
      Balanced tag ("<!--" ++ (content ++ "-->") ++ body) rest
  | selfClosing {name tail body rest : Text} (named : Text.lower name = Text.lower tag)
      (ends : endsName tail = true) (inTag : TailBefore (body ++ rest) tail true)
      (more : Balanced tag body rest) : Balanced tag ('<' :: (name ++ (tail ++ body))) rest
  | element {name name' tail inside body rest : Text} (named : Text.lower name = Text.lower tag)
      (ends : endsName tail = true)
      (inTag : TailBefore (inside ++ ("</" ++ (name' ++ (body ++ rest)))) tail false)
      (inner : Balanced tag inside ("</" ++ (name' ++ (body ++ rest))))
      (named' : Text.lower name' = Text.lower tag) (ends' : endsName (body ++ rest) = true)
      (more : Balanced tag body rest) :
      Balanced tag ('<' :: (name ++ (tail ++ (inside ++ ("</" ++ (name' ++ body)))))) rest
  | plain {c : Char} {body rest : Text} (notSign : ¬ IsSign tag (c :: (body ++ rest)))
      (more : Balanced tag body rest) : Balanced tag (c :: body) rest

/-! ### Balanced bodies are passed over -/

/-- A name in another case starts with neither of the characters that tell tags apart. -/
theorem exists_head_of_lower {tag name : Text} (htag : Cursor.isBlockName tag = true)
    (h : Text.lower name = Text.lower tag) : ∃ c, name.head? = some c ∧ c ≠ '/' ∧ c ≠ '!' := by
  cases tag with
  | nil => cases htag
  | cons d tag =>
    rw [Cursor.isBlockName, Bool.and_eq_true] at htag
    obtain ⟨-, hslash, hbang⟩ := Cursor.isTagHead_not htag.1
    cases name with
    | nil => cases h
    | cons c name =>
      have hlower : c.toLower = d.toLower := (List.cons.inj h).1
      refine ⟨c, rfl, ?_, ?_⟩
      · rintro rfl
        exact hslash (Template.eq_of_toLower hlower.symm (by decide))
      · rintro rfl
        exact hbang (Template.eq_of_toLower hlower.symm (by decide))

theorem Balanced.length_append {tag body rest : Text} (htag : Cursor.isBlockName tag = true)
    (h : Balanced tag body rest) (depth : Nat) :
    length tag depth (body ++ rest) = body.length + length tag depth rest := by
  induction h generalizing depth with
  | nil => simp
  | @comment content body rest clear more ih =>
    rw [List.append_assoc, length_append_of_comment depth clear, ih]
    simp only [List.length_append]
    omega
  | @selfClosing name tail body rest named ends inTag more ih =>
    obtain ⟨c, hc, hletter⟩ := exists_head_of_lower htag named
    have htext : '<' :: (name ++ (tail ++ body)) ++ rest =
        '<' :: (name ++ (tail ++ (body ++ rest))) := by simp
    rw [htext, length_opening depth named ends inTag hc hletter, if_pos rfl, ih]
    simp only [List.length_cons, List.length_append]
    omega
  | @element name name' tail inside body rest named ends inTag inner named' ends' more ihInner ih =>
    obtain ⟨c, hc, hletter⟩ := exists_head_of_lower htag named
    have htext : '<' :: (name ++ (tail ++ (inside ++ ("</" ++ (name' ++ body))))) ++ rest =
        '<' :: (name ++ (tail ++ (inside ++ ("</" ++ (name' ++ (body ++ rest)))))) := by simp
    have hclosing := length_closing_succ depth named' ends'
    rw [List.append_assoc] at hclosing
    rw [htext, length_opening depth named ends inTag hc hletter, if_neg (by simp), ihInner,
      hclosing, ih]
    simp only [List.length_cons, List.length_append, String.reduceToList, List.length_nil]
    omega
  | @plain c body rest notSign more ih =>
    have hpiece := ofText_of_not_isSign notSign
    rw [List.cons_append, length, hpiece]
    simp only [List.drop_zero, ih, List.length_cons]
    omega

/-! ### What is passed over is balanced -/

/-- An opening tag has an end, or goes on to the end of the source. -/
theorem tagRest_cases (t : Text) :
    tagRest none t = (t.length, false) ∨
      ∃ tail after selfClosing, t = tail ++ after ∧ TailBefore after tail selfClosing := by
  induction hlength : t.length using Nat.strong_induction_on generalizing t with
  | _ n ih =>
  subst hlength
  cases t with
  | nil => exact .inl rfl
  | cons c t =>
    by_cases hquote : Cursor.isQuote c = true
    · by_cases hclosed : c ∈ t
      · obtain ⟨value, more, rfl, hvalue⟩ := List.eq_append_cons_of_mem hclosed
        have hshorter : more.length < (c :: (value ++ c :: more)).length := by simp; omega
        rcases ih _ hshorter more rfl with hcut | ⟨tail, after, selfClosing, rfl, htail⟩
        · left
          rw [tagRest]
          simp only [hquote, ↓reduceIte, List.contains_append, List.contains_cons, beq_self_eq_true,
            Bool.true_or, Bool.or_true, tagRest_quoted hvalue, hcut, List.length_cons,
            List.length_append]
          exact Prod.ext (by simp only; omega) rfl
        · exact .inr ⟨c :: (value ++ c :: tail), after, selfClosing, by simp,
            .quoted hquote hvalue htail⟩
      · rcases ih _ (by simp) t rfl with hcut | ⟨tail, after, selfClosing, rfl, htail⟩
        · left
          have hnever : t.contains c = false := by simpa using hclosed
          rw [tagRest]
          simp only [hquote, ↓reduceIte, hnever, Bool.false_eq_true, hcut, List.length_cons]
        · exact .inr ⟨c :: tail, after, selfClosing, rfl, .unclosed hquote hclosed htail⟩
    · rw [Bool.not_eq_true] at hquote
      by_cases hend : c = '>'
      · subst hend
        exact .inr ⟨['>'], t, false, rfl, .last⟩
      · by_cases hslash : c = '/' ∧ t.head? = some '>'
        · obtain ⟨rfl, hhead⟩ := hslash
          obtain ⟨after, rfl⟩ := List.head?_eq_some_iff.1 hhead
          exact .inr ⟨['/', '>'], after, true, rfl, .slash⟩
        · rcases ih _ (by simp) t rfl with hcut | ⟨tail, after, selfClosing, rfl, htail⟩
          · left
            have hmark : (c == '/' && t.head? == some '>') = false := by
              rw [Bool.eq_false_iff]
              simpa using hslash
            rw [tagRest]
            simp only [hquote, Bool.false_eq_true, ↓reduceIte, beq_iff_eq, hend, hmark, hcut,
              List.length_cons]
          · refine .inr ⟨c :: tail, after, selfClosing, rfl, .char hquote hend ?_ htail⟩
            rintro ⟨rfl, hhead⟩
            exact hslash ⟨rfl, by rw [List.head?_append, hhead]; rfl⟩

/-- A piece of a content, and the kind it has if `after` follows it. -/
inductive Cut (tag : Text) : Piece → (piece after : Text) → Prop
  | comment {content after : Text} (clear : ¬ ("-->" : Text) <:+: content) :
      Cut tag .comment ("<!--" ++ (content ++ "-->")) after
  | closing {name after : Text} (named : Text.lower name = Text.lower tag)
      (ends : endsName after = true) : Cut tag .closing ("</" ++ name) after
  | opening {name tail after : Text} (named : Text.lower name = Text.lower tag)
      (ends : endsName tail = true) (inTag : TailBefore after tail false) :
      Cut tag .opening ('<' :: (name ++ tail)) after
  | selfClosing {name tail after : Text} (named : Text.lower name = Text.lower tag)
      (ends : endsName tail = true) (inTag : TailBefore after tail true) :
      Cut tag .selfClosing ('<' :: (name ++ tail)) after
  | plain {c : Char} {after : Text} (notSign : ¬ IsSign tag (c :: after)) : Cut tag .plain [c] after

theorem cut_opening {tag t : Text} {n : Nat} {selfClosing : Bool}
    (h : startsTag ("<" ++ tag) t = true)
    (hrest : tagRest none (t.drop (tag.length + 1)) = (n, selfClosing)) :
    t.length ≤ tag.length + n + 1 ∨ ∃ piece after, t = piece ++ after ∧
      piece.length = tag.length + n + 1 ∧
      Cut tag (if selfClosing then .selfClosing else .opening) piece after := by
  obtain ⟨name, more, rfl, hname, hend⟩ := exists_of_startsTag (by decide) h
  have hlength := length_eq_of_lower hname
  have hdrop : ("<" ++ (name ++ more) : Text).drop (tag.length + 1) = more := by
    rw [← hlength]
    simp
  rw [hdrop] at hrest
  rcases tagRest_cases more with hcut | ⟨tail, after, closes, rfl, htail⟩
  · rw [hcut] at hrest
    cases hrest
    left
    simp only [List.length_append, String.reduceToList, List.length_cons, List.length_nil]
    omega
  · rw [endsName_append htail.ne_nil] at hend
    rw [htail.tagRest_append] at hrest
    cases hrest
    refine .inr ⟨'<' :: (name ++ tail), after, by simp, ?_, ?_⟩
    · simp only [List.length_append, List.length_cons]
      omega
    · cases selfClosing with
      | false => exact .opening hname hend htail
      | true => exact .selfClosing hname hend htail

/-- A content starts with a piece of a known kind, unless a comment or a tag in it does not end. -/
theorem cut_ofText {tag t : Text} {kind : Piece} {n : Nat} (ht : t ≠ [])
    (h : Piece.ofText tag t = (kind, n)) :
    t.length ≤ n + 1 ∨ ∃ piece after, t = piece ++ after ∧ piece.length = n + 1 ∧
      Cut tag kind piece after := by
  unfold Piece.ofText at h
  split at h
  · split at h
    · rename_i content last hcomment
      cases h
      have hreads := Cursor.reads_comment? hcomment
      refine .inr ⟨_, last.rest, hreads.rest, by simp, .comment ?_⟩
      exact Template.Event.clear_of_comment? hcomment
    · cases h
      exact .inl (by omega)
  · rename_i hcomment
    split at h
    · rename_i hclosing
      cases h
      obtain ⟨name, after, rfl, hname, hend⟩ := exists_of_startsTag (by decide) hclosing
      refine .inr ⟨"</" ++ name, after, by simp, ?_, .closing hname hend⟩
      simp [length_eq_of_lower hname]
    · rename_i hclosing
      split at h
      · rename_i hopening
        cases h
        exact cut_opening hopening rfl
      · rename_i hopening
        cases h
        obtain ⟨c, after, rfl⟩ := List.exists_cons_of_ne_nil ht
        refine .inr ⟨[c], after, rfl, rfl, .plain ?_⟩
        rintro (hsign | hsign | hsign)
        · exact hcomment (List.isPrefixOf_iff_prefix.2 hsign)
        · exact hclosing hsign
        · exact hopening hsign

/-- Balanced bodies on the way out of `depth` open elements, with the closing tags of these between
them. -/
inductive Levels (tag : Text) : (depth : Nat) → (body rest : Text) → Prop
  | zero {body rest : Text} (balanced : Balanced tag body rest) : Levels tag 0 body rest
  | succ {depth : Nat} {inside name body rest : Text}
      (inner : Balanced tag inside ("</" ++ (name ++ (body ++ rest))))
      (named : Text.lower name = Text.lower tag) (ends : endsName (body ++ rest) = true)
      (more : Levels tag depth body rest) :
      Levels tag (depth + 1) (inside ++ ("</" ++ (name ++ body))) rest

namespace Levels

variable {tag piece body rest : Text} {depth : Nat}

/-- What can stand before a balanced body can stand before the first of several. -/
theorem prepend (h : Levels tag depth body rest)
    (hpiece : ∀ first more, first ++ more = body ++ rest → Balanced tag first more →
      Balanced tag (piece ++ first) more) : Levels tag depth (piece ++ body) rest := by
  cases h with
  | zero balanced => exact .zero (hpiece body rest rfl balanced)
  | @succ depth inside name body rest inner named ends more =>
    rw [← List.append_assoc]
    exact .succ (hpiece _ _ (by simp) inner) named ends more

theorem closing (h : Levels tag depth body rest) (hcut : Cut tag .closing piece (body ++ rest)) :
    Levels tag (depth + 1) (piece ++ body) rest := by
  cases hcut with
  | closing named ends =>
    rw [List.append_assoc]
    exact .succ .nil named ends h

/-- An opening tag makes one element of the first two bodies. -/
theorem opening (h : Levels tag (depth + 1) body rest)
    (hcut : Cut tag .opening piece (body ++ rest)) : Levels tag depth (piece ++ body) rest := by
  cases hcut with
  | @opening name tail _ named ends inTag =>
    cases h with
    | @succ _ inside name' after _ inner named' ends' more =>
      have helement : Levels tag depth
          ('<' :: (name ++ (tail ++ (inside ++ ("</" ++ name')))) ++ after) rest := by
        refine more.prepend fun first others hsame hfirst => ?_
        rw [← hsame] at inner ends'
        have htext : inside ++ ("</" ++ (name' ++ after)) ++ rest =
            inside ++ ("</" ++ (name' ++ (first ++ others))) := by
          rw [hsame]
          simp
        rw [htext] at inTag
        simpa using Balanced.element named ends inTag inner named' ends' hfirst
      simpa using helement

theorem flat {kind : Piece} (h : Levels tag depth body rest)
    (hcut : Cut tag kind piece (body ++ rest)) (hclosing : kind ≠ .closing)
    (hopening : kind ≠ .opening) : Levels tag depth (piece ++ body) rest := by
  refine h.prepend fun first more hsame hfirst => ?_
  rw [← hsame] at hcut
  cases hcut with
  | comment clear => exact .comment clear hfirst
  | closing => exact absurd rfl hclosing
  | opening => exact absurd rfl hopening
  | selfClosing named ends inTag => simpa using Balanced.selfClosing named ends inTag hfirst
  | plain notSign => exact .plain notSign hfirst

end Levels

/-- A content that is passed over for `n` characters goes on to the end, or leads out of the open
elements to a closing tag. -/
def Leaves (tag : Text) (depth : Nat) (t : Text) (n : Nat) : Prop :=
  t.length ≤ n ∨ ∃ body rest, t = body ++ rest ∧ body.length = n ∧ IsClosing tag rest ∧
    Levels tag depth body rest

theorem Leaves.step {tag t : Text} {kind : Piece} {depth depth' n m : Nat} (ht : t ≠ [])
    (hpiece : Piece.ofText tag t = (kind, n)) (h : Leaves tag depth' (t.drop (n + 1)) m)
    (hlevels : ∀ piece body rest, Cut tag kind piece (body ++ rest) →
      Levels tag depth' body rest → Levels tag depth (piece ++ body) rest) :
    Leaves tag depth t (n + 1 + m) := by
  rcases cut_ofText ht hpiece with hend | ⟨piece, after, rfl, hlength, hcut⟩
  · exact .inl (by omega)
  · rw [← hlength, List.drop_left] at h
    rcases h with hend | ⟨body, rest, rfl, hbody, hrest, hdeeper⟩
    · left
      rw [List.length_append]
      omega
    · refine .inr ⟨piece ++ body, rest, by simp, ?_, hrest, hlevels piece body rest hcut hdeeper⟩
      rw [List.length_append]
      omega

theorem leaves_length (tag : Text) (depth : Nat) (t : Text) :
    Leaves tag depth t (length tag depth t) := by
  fun_induction length tag depth t with
  | case1 => exact .inl (Nat.le_refl 0)
  | case2 c t n hpiece =>
    obtain ⟨name, after, hcut, hname, hend⟩ :=
      exists_of_startsTag (by decide) (Template.startsTag_of_closing hpiece)
    exact .inr ⟨[], c :: t, rfl, rfl, ⟨name, after, hcut, hname, hend⟩, .zero .nil⟩
  | case3 c t n hpiece depth ih =>
    exact Leaves.step (by simp) hpiece ih fun piece body rest hcut h => h.closing hcut
  | case4 depth c t n hpiece ih =>
    exact Leaves.step (by simp) hpiece ih fun piece body rest hcut h => h.opening hcut
  | case5 depth c t kind n hclosing hopening hpiece ih =>
    exact Leaves.step (by simp) hpiece ih
      fun piece body rest hcut h => h.flat hcut hclosing hopening

end Body

namespace Cursor

open Body

theorem body_of_take {c : Cursor} {tag body rest : Text} (hrest : c.rest = body ++ rest)
    (htake : c.rest.take (Body.length tag 0 c.rest) = body) :
    c.body tag = (body, ⟨c.offset + Text.size body, rest⟩) := by
  obtain ⟨k, t⟩ := c
  simp only at hrest htake
  simp only [Cursor.body, htake]
  rw [hrest, advance_append]

/-- The content of a block is the balanced body before a closing tag of its name, in any case.  On
any text at all the reader stops there or at the end of the source. -/
theorem body_balanced (tag : Text) :
    (isBlockName tag = true → ∀ (k : Nat) (body rest : Text), Balanced tag body rest →
      IsClosing tag rest →
        (⟨k, body ++ rest⟩ : Cursor).body tag = (body, ⟨k + Text.size body, rest⟩)) ∧
    ∀ c : Cursor, ∃ body rest, c.rest = body ++ rest ∧
      c.body tag = (body, ⟨c.offset + Text.size body, rest⟩) ∧
      (rest = [] ∨ IsClosing tag rest ∧ Balanced tag body rest) := by
  constructor
  · rintro htag k body rest hbody ⟨name, after, rfl, hname, hend⟩
    refine body_of_take rfl ?_
    have hclosing := length_closing_zero hname hend
    rw [List.append_assoc] at hclosing
    rw [hbody.length_append htag, hclosing]
    exact List.take_left
  · intro c
    rcases leaves_length tag 0 c.rest with hend | ⟨body, rest, hcut, hlength, hclosing, hlevels⟩
    · refine ⟨c.rest, [], by simp, body_of_take (by simp) ?_, .inl rfl⟩
      exact List.take_of_length_le hend
    · cases hlevels with
      | zero balanced =>
        refine ⟨body, rest, hcut, body_of_take hcut ?_, .inr ⟨hclosing, balanced⟩⟩
        rw [← hlength]
        nth_rewrite 1 [hcut]
        exact List.take_left

/-- A comment that hides a closing tag, a self-closing tag and an opening one with their ends in
quotes, an element in an element, closing tags in another case and with blanks in them, and a longer
name. -/
def balancedSample : Text :=
  "<!--</t>--><T a='>'/><t b=\"/>\">x<t></t ></T\n><t-x></t-x>"

theorem body_balanced_sample :
    isBlockName "t" = true ∧ IsClosing "t" "</T/y" ∧ Balanced "t" balancedSample "</T/y" ∧
      ∀ k, (⟨k, balancedSample ++ "</T/y"⟩ : Cursor).body "t" =
        (balancedSample, ⟨k + Text.size balancedSample, "</T/y"⟩) := by
  have htag : isBlockName "t" = true := by decide
  have hread : ((Cursor.start (balancedSample ++ "</T/y")).body "t").2.rest = "</T/y" := by
    decide +kernel
  obtain ⟨hpasses, hstops⟩ := body_balanced "t"
  obtain ⟨body, rest, hcut, hbody, hend⟩ := hstops (.start (balancedSample ++ "</T/y"))
  obtain rfl : rest = "</T/y" := by rwa [hbody] at hread
  obtain rfl : balancedSample = body := List.append_cancel_right hcut
  obtain ⟨hclosing, hbalanced⟩ := hend.resolve_left (by decide)
  exact ⟨htag, hclosing, hbalanced, fun k => hpasses htag k _ _ hbalanced hclosing⟩

end Cursor

end Wxml
