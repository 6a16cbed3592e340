import Wxml.Proofs.ComponentPrinting
import Wxml.Proofs.Parsed

/-!
# Templates inside components

A component finds the end of its template without reading it: it looks only for comments and for
tags named `template`.  `Event.Clear` says that this is enough to see where an event of the template
ends: what looks like one of these is one, and is written as the component expects it.

* `Event.step_of_read` says what an event can be, as far as this matters.
* `Event.Clear.length_read` compares one event with what the component makes of it, and
  `length_scan` all events; the depth in the component is the number of open `template` elements.
* `content_of_template` is the result: the template block holds the whole template.
* `exists_template_cut_short` is a template that is mistaken, and is cut short.
-/

namespace Wxml

namespace Body

/-- A comment, or an opening tag of the block's own name, starts here.  What it encloses is passed
over with it. -/
def IsEnclosing (tag t : Text) : Prop :=
  ("<!--" : Text) <+: t ∨ startsTag ("<" ++ tag) t = true

instance (tag t : Text) : Decidable (IsEnclosing tag t) := inferInstanceAs (Decidable (_ ∨ _))

theorem IsEnclosing.isSign {tag t : Text} (h : IsEnclosing tag t) : IsSign tag t :=
  h.imp_right .inr

theorem isTagChar_of_endsName {t : Text} (h : endsName t = true) :
    ∀ c, t.head? = some c → Cursor.isTagChar c = false := by
  cases t with
  | nil => simp
  | cons d t =>
    simp only [endsName, Bool.or_eq_true, beq_iff_eq] at h
    refine Text.forall_head?_cons ?_
    rcases h with ((((rfl | rfl) | rfl) | rfl) | rfl) | rfl <;> decide

end Body

namespace Template

/-- A name is `template`, in any case of its letters. -/
def isTemplate (name : Text) : Bool := Text.lower name == ("template" : Text)

theorem lower_of_isTemplate {name : Text} (h : isTemplate name = true) :
    Text.lower name = Text.lower "template" := beq_iff_eq.1 h

theorem isAlpha_of_isTemplate {name : Text} (h : isTemplate name = true) :
    ∀ c ∈ name, c.isAlpha = true := by
  rw [isTemplate, beq_iff_eq] at h
  intro c hc
  have hletters : ("template" : Text).all Char.isAlpha = true := by decide
  have hmem : c.toLower ∈ ("template" : Text) := h ▸ List.mem_map_of_mem hc
  exact isAlpha_of_toLower (List.all_eq_true.1 hletters _ hmem)

/-- A tag that starts like one named `template` has that name. -/
theorem exists_template_of_startsTag {mark t : Text}
    (hmark : mark.all (fun c => !c.isLower && c.toLower == c) = true)
    (h : Body.startsTag (mark ++ "template") t = true) :
    ∃ name rest, t = mark ++ (name ++ rest) ∧ isTemplate name = true ∧
      (name ++ rest).takeWhile Cursor.isTagChar = name := by
  obtain ⟨name, rest, ht, hname, hend⟩ := Body.exists_of_startsTag hmark h
  have hown : isTemplate name = true := beq_iff_eq.2 hname
  refine ⟨name, rest, ht, hown, Text.takeWhile_append_stop (fun c hc => ?_)
    (Body.isTagChar_of_endsName hend)⟩
  simp [Cursor.isTagChar, Char.isAlphanum, isAlpha_of_isTemplate hown c hc]

namespace Event

/-! ### What an event can be -/

theorem tag_of_readTag {c after : Cursor} {head : Element} (h : readTag c = .ok (head, after)) :
    head.tag = (c.rest.drop 1).takeWhile Cursor.isTagChar := by
  unfold readTag at h
  simp only at h
  split at h
  · cases h
  · split at h
    · cases h
      rfl
    · split at h
      · cases h
        rfl
      · cases h

/-- What an event can be, as far as comments and tags named `template` go. -/
inductive Step (c : Cursor) : Option Event → Cursor → Prop
  | closing {name : Text} {span : Span} {stop : Nat} (starts : ("</" : Text) <+: c.rest)
      (named : name = (c.rest.drop 2).takeWhile Cursor.isTagChar) :
      Step c (some (.closed name span stop)) c.skipTag
  | comment {content : Text} {node : Node} {after : Cursor}
      (read : c.comment? = some (content, after)) : Step c (some (.complete node)) after
  | selfClosing {head : Element} {node : Node} {after : Cursor}
      (starts : startsElement c.rest = true) (tag : readTag c = .ok (head, after))
      (closes : head.selfClosing = true) : Step c (some (.complete node)) after
  | complete {head : Element} {node : Node} {opening after : Cursor}
      (starts : startsElement c.rest = true) (tag : readTag c = .ok (head, opening))
      (other : isTemplate head.tag = false) : Step c (some (.complete node)) after
  | opened {head : Element} {after : Cursor} (starts : startsElement c.rest = true)
      (tag : readTag c = .ok (head, after)) (opens : head.selfClosing = false) :
      Step c (some (.opened head)) after
  | plain {event : Option Event} {after : Cursor} (notClosing : ¬ ("</" : Text) <+: c.rest)
      (notComment : ¬ ("<!--" : Text) <+: c.rest) (notElement : startsElement c.rest = false)
      (found : ∀ e ∈ event, ∃ node, e = .complete node) : Step c event after

theorem isTemplate_eq_false {tag : Text} (h : isVoid tag = true ∨ isRawText tag = true) :
    isTemplate tag = false := by
  rw [Bool.eq_false_iff, isTemplate, Ne, beq_iff_eq]
  intro hname
  rw [isVoid, isRawText, hname] at h
  revert h
  decide

theorem step_of_readElement {c after : Cursor} {event : Event}
    (hstarts : startsElement c.rest = true) (h : readElement c = .ok (event, after)) :
    Step c (some event) after := by
  unfold readElement at h
  split at h
  · cases h
  · rename_i head opening htag
    simp only at h
    split at h
    · rename_i hcloses
      cases h
      exact .selfClosing hstarts htag hcloses
    · rename_i hopens
      split at h
      · rename_i hvoid
        cases h
        exact .complete hstarts htag (isTemplate_eq_false (.inl hvoid))
      · split at h
        · rename_i hraw
          split at h
          · cases h
          · cases h
            exact .complete hstarts htag (isTemplate_eq_false (.inr hraw))
        · cases h
          exact .opened hstarts htag (by simpa using hopens)

theorem step_of_read {c after : Cursor} {event : Option Event} (h : read c = .ok (event, after)) :
    Step c event after := by
  rw [read_eq] at h
  split at h
  · rename_i hclosing
    cases h
    exact .closing (Cursor.startsWith_iff.1 hclosing) rfl
  · rename_i hclosing
    split at h
    · split at h
      · rename_i content last hcomment
        cases h
        exact .comment hcomment
      · cases h
    · rename_i hcomment
      split at h
      · rename_i hstarts
        split at h
        · rename_i found last hread
          cases h
          exact step_of_readElement hstarts hread
        · cases h
      · rename_i hstarts
        rw [Cursor.startsWith_iff] at hclosing hcomment
        refine .plain hclosing hcomment (by simpa using hstarts) ?_
        split at h
        · split at h
          · rename_i found last hread
            cases h
            unfold readInterpolation at hread
            simp only at hread
            split at hread
            · cases hread
              simp
            · cases hread
          · cases h
        · cases h
          intro e he
          obtain ⟨node, -, rfl⟩ := Option.map_eq_some_iff.1 he
          exact ⟨node, rfl⟩

/-! ### Templates that cannot be mistaken -/

/-- The cursors where the events from a cursor on start. -/
def starts (c : Cursor) : List Cursor :=
  if _hend : c.rest = [] then []
  else
    match _hread : read c with
    | .error _ => [c]
    | .ok (_, after) => c :: starts after
termination_by c.rest.length
decreasing_by exact length_read_lt _hend _hread

theorem starts_of_read {c after : Cursor} {event : Option Event} (hend : c.rest ≠ [])
    (h : read c = .ok (event, after)) : starts c = c :: starts after := by
  rw [starts, dif_neg hend]
  split
  · rename_i hread
    rw [h] at hread
    cases hread
  · rename_i hread
    rw [h] at hread
    cases hread
    rfl

/-- One who looks only for comments and tags named `template` sees where an event ends.  If it is
none of these, none starts inside it.  The name in a closing tag is seen to end, and an opening tag
ends at its first `>` outside of quotes, with a `/` before it if it is self-closing. -/
structure Clear (c : Cursor) : Prop where
  inside : ∀ event after, read c = .ok (event, after) →
    ∀ i, 0 < i → after.rest.length < (c.rest.drop i).length →
      Body.IsSign "template" (c.rest.drop i) → Body.IsEnclosing "template" c.rest
  closing : ∀ name rest, c.rest = "</" ++ (name ++ rest) → isTemplate name = true →
    (name ++ rest).takeWhile Cursor.isTagChar = name → Body.endsName rest = true
  opening : ∀ head after, startsElement c.rest = true → readTag c = .ok (head, after) →
    isTemplate head.tag = true →
    ∃ tail, c.rest = '<' :: (head.tag ++ (tail ++ after.rest)) ∧ Body.endsName tail = true ∧
      Body.TagTail tail head.selfClosing

section

variable {c after : Cursor} {event : Option Event} {piece : Text} (h : Clear c)
  (hread : read c = .ok (event, after)) (hpiece : c.Reads piece after)

include h hread hpiece

/-- No sign starts inside an event that is not a comment or an opening tag. -/
theorem Clear.not_isSign_inside {v rest : Text} (hbare : ¬ Body.IsEnclosing "template" c.rest)
    (hv : v ≠ []) (hsuffix : v <:+ piece) (hne : v.length < piece.length)
    (hrest : rest.head? = some '<') :
    ¬ Body.IsSign "template" (v ++ (after.rest ++ rest)) := by
  intro hsign
  rw [← List.append_assoc] at hsign
  have hsign := Body.isSign_of_append (by decide) (by simp [hv]) hrest hsign
  obtain ⟨before, rfl⟩ := hsuffix
  have hdrop : c.rest.drop before.length = v ++ after.rest := by
    rw [hpiece.rest, List.append_assoc, List.drop_left]
  have hpos := List.length_pos_iff.2 hv
  rw [List.length_append] at hne
  refine hbare (h.inside event after hread before.length (by omega) ?_ (by rwa [hdrop]))
  rw [hdrop, List.length_append]
  omega

variable {rest : Text} (hrest : rest.head? = some '<') (depth : Nat)

include hrest

/-- The end of an event is passed over. -/
theorem Clear.length_end {start u : Text} (hbare : ¬ Body.IsEnclosing "template" c.rest)
    (hparts : piece = start ++ u) (hstart : start ≠ []) :
    Body.length "template" depth (u ++ (after.rest ++ rest)) =
      u.length + Body.length "template" depth (after.rest ++ rest) := by
  refine Body.length_append_of_plain depth fun v hv hsuffix => ?_
  have hle := hsuffix.length_le
  have hpos := List.length_pos_iff.2 hstart
  refine h.not_isSign_inside hread hpiece hbare hv (hsuffix.trans ⟨start, hparts.symm⟩) ?_ hrest
  rw [hparts, List.length_append]
  omega

/-- An event that does not start with a sign is passed over. -/
theorem Clear.length_plain (hend : c.rest ≠ []) (hplain : ¬ Body.IsSign "template" c.rest) :
    Body.length "template" depth (c.rest ++ rest) =
      piece.length + Body.length "template" depth (after.rest ++ rest) := by
  have hassoc : c.rest ++ rest = piece ++ (after.rest ++ rest) := by
    rw [hpiece.rest, List.append_assoc]
  rw [hassoc]
  refine Body.length_append_of_plain depth fun v hv hsuffix => ?_
  by_cases hlength : v.length < piece.length
  · exact h.not_isSign_inside hread hpiece (fun hsign => hplain hsign.isSign) hv hsuffix hlength
      hrest
  · rw [hsuffix.eq_of_length_le (Nat.le_of_not_lt hlength), ← hassoc]
    exact fun hsign => hplain (Body.isSign_of_append (by decide) hend hrest hsign)

end

/-! ### Events in a block -/

/-- What starts like a comment or a tag named `template` is read as one. -/
theorem isSign_cases {t : Text} (h : Body.IsSign "template" t) :
    ("<!--" : Text) <+: t ∨
      ("</" : Text) <+: t ∧ isTemplate ((t.drop 2).takeWhile Cursor.isTagChar) = true ∨
      startsElement t = true ∧ isTemplate ((t.drop 1).takeWhile Cursor.isTagChar) = true := by
  rcases h with hcomment | hclosing | hopening
  · exact .inl hcomment
  · obtain ⟨name, rest, rfl, hname, htaken⟩ := exists_template_of_startsTag (by decide) hclosing
    refine .inr (.inl ⟨⟨_, rfl⟩, ?_⟩)
    show isTemplate ((name ++ rest).takeWhile Cursor.isTagChar) = true
    rwa [htaken]
  · obtain ⟨name, rest, rfl, hname, htaken⟩ := exists_template_of_startsTag (by decide) hopening
    refine .inr (.inr ⟨?_, ?_⟩)
    · cases name with
      | nil => cases hname
      | cons c name =>
        exact startsElement_iff.2
          ⟨c, name ++ rest, rfl, isAlpha_of_isTemplate hname c List.mem_cons_self⟩
    · show isTemplate ((name ++ rest).takeWhile Cursor.isTagChar) = true
      rwa [htaken]

/-- A closing tag is neither a comment nor an opening tag. -/
theorem not_isEnclosing_of_closing {t : Text} (hstarts : ("</" : Text) <+: t) :
    ¬ Body.IsEnclosing "template" t := by
  obtain ⟨rest, rfl⟩ := hstarts
  rintro (hcomment | hopening)
  · simp at hcomment
  · obtain ⟨name, more, hcut, hname, -⟩ := exists_template_of_startsTag (by decide) hopening
    cases name with
    | nil => cases hname
    | cons c name =>
      have hslash : '/' = c := by
        injection hcut with _ hcut
        injection hcut
      have hc := isAlpha_of_isTemplate hname c List.mem_cons_self
      rw [← hslash] at hc
      revert hc
      decide

theorem not_isSign_of_closing {t : Text} (hstarts : ("</" : Text) <+: t)
    (hname : isTemplate ((t.drop 2).takeWhile Cursor.isTagChar) = false) :
    ¬ Body.IsSign "template" t := by
  have hbare := not_isEnclosing_of_closing hstarts
  rintro (hsign | hsign | hsign)
  · exact hbare (.inl hsign)
  · obtain ⟨name, rest, rfl, hown, htaken⟩ := exists_template_of_startsTag (by decide) hsign
    have hname : isTemplate ((name ++ rest).takeWhile Cursor.isTagChar) = false := hname
    rw [htaken, hown] at hname
    cases hname
  · exact hbare (.inr hsign)

theorem not_isSign_of_element {t : Text} (hstarts : startsElement t = true)
    (hname : isTemplate ((t.drop 1).takeWhile Cursor.isTagChar) = false) :
    ¬ Body.IsSign "template" t := by
  obtain ⟨c, rest, rfl, hc⟩ := startsElement_iff.1 hstarts
  intro hsign
  rcases isSign_cases hsign with hcomment | ⟨hclosing, -⟩ | ⟨-, hopening⟩
  · have hbang : '!' = c := (List.cons_prefix_cons.1 (List.cons_prefix_cons.1 hcomment).2).1
    rw [← hbang] at hc
    revert hc
    decide
  · have hslash : '/' = c := (List.cons_prefix_cons.1 (List.cons_prefix_cons.1 hclosing).2).1
    rw [← hslash] at hc
    revert hc
    decide
  · rw [hname] at hopening
    cases hopening

/-- What a tag starts with stands before the bracket that it is skipped to. -/
theorem isPrefix_of_reads_skipTag {c : Cursor} {pattern piece : Text} (h : pattern <+: c.rest)
    (hclear : '>' ∉ pattern) (hpiece : c.Reads piece c.skipTag) : pattern <+: piece := by
  obtain ⟨t, -, hreads | ⟨-, hnothing⟩⟩ := c.reads_skipTag
  · have hparts : piece = t ++ ">" :=
      List.append_cancel_right (hpiece.rest.symm.trans hreads.rest)
    rw [hreads.rest, List.append_assoc] at h
    rw [hparts]
    exact (Text.prefix_of_prefix_append h (Text.forall_head?_cons hclear)).trans
      (List.prefix_append _ _)
  · rwa [hpiece.rest, hnothing, List.append_nil] at h

/-- The number of open `template` elements before and after an event. -/
def Leads : Option Event → Nat → Nat → Prop
  | some (.opened head), depth, depth' => depth' = depth + (isTemplate head.tag).toNat
  | some (.closed name _ _), depth, depth' => depth = depth' + (isTemplate name).toNat
  | _, depth, depth' => depth' = depth

section

variable {c after : Cursor} {piece rest : Text} (h : Clear c) (hpiece : c.Reads piece after)

include h hpiece

/-- The opening tag of a `template` element. -/
theorem Clear.length_tag {head : Element} (hstarts : startsElement c.rest = true)
    (htag : readTag c = .ok (head, after)) (hname : isTemplate head.tag = true) (depth : Nat) :
    Body.length "template" depth (c.rest ++ rest) =
      piece.length + Body.length "template" (if head.selfClosing then depth else depth + 1)
        (after.rest ++ rest) := by
  obtain ⟨tail, hcut, hends, htail⟩ := h.opening head after hstarts htag hname
  have hparts : piece = '<' :: (head.tag ++ tail) := by
    refine List.append_cancel_right (hpiece.rest.symm.trans (hcut.trans ?_))
    simp
  have hletter : ∃ d, head.tag.head? = some d ∧ d ≠ '/' ∧ d ≠ '!' := by
    obtain ⟨d, more, hmore, hd⟩ := startsElement_iff.1 hstarts
    have hhead : head.tag.head? = some d := by
      rw [tag_of_readTag htag, hmore]
      simp [Cursor.isTagChar, Char.isAlphanum, hd]
    refine ⟨d, hhead, ?_, ?_⟩
    all_goals
      rintro rfl
      revert hd
      decide
  obtain ⟨d, hd, hne⟩ := hletter
  have htext : c.rest ++ rest = '<' :: (head.tag ++ (tail ++ (after.rest ++ rest))) := by
    rw [hcut]
    simp
  rw [htext, Body.length_opening depth (lower_of_isTemplate hname) hends (htail.before _) hd hne,
    hparts]
  simp only [List.length_cons, List.length_append]

variable {event : Option Event} (hread : read c = .ok (event, after))
  (hrest : rest.head? = some '<')

include hread hrest

/-- The closing tag of a `template` element, if it is complete. -/
theorem Clear.length_closing {name : Text} (hlast : c.rest.getLast? = some '>')
    (hstarts : ("</" : Text) <+: c.rest)
    (hname : name = (c.rest.drop 2).takeWhile Cursor.isTagChar) (hafter : after = c.skipTag)
    (hown : isTemplate name = true) (depth : Nat) :
    Body.length "template" (depth + 1) (c.rest ++ rest) =
      piece.length + Body.length "template" depth (after.rest ++ rest) := by
  have hbare := not_isEnclosing_of_closing hstarts
  obtain ⟨start, hstart⟩ := hstarts
  rw [← hstart] at hname
  have htaken : name ++ start.dropWhile Cursor.isTagChar = start := by
    rw [hname]
    exact List.takeWhile_append_dropWhile
  have hcut : c.rest = ("</" ++ name) ++ start.dropWhile Cursor.isTagChar := by
    rw [List.append_assoc, htaken, hstart]
  have hclear : '>' ∉ ("</" ++ name : Text) := by
    have hchars : ∀ d ∈ name, Cursor.isTagChar d = true := by
      rw [hname]
      exact List.all_eq_true.1 List.all_takeWhile
    simpa using not_mem_of_isTagChar hchars
  obtain ⟨u, hparts⟩ := isPrefix_of_reads_skipTag ⟨_, hcut.symm⟩ hclear (hafter ▸ hpiece)
  have hrests : start.dropWhile Cursor.isTagChar = u ++ after.rest := by
    refine List.append_cancel_left (hcut.symm.trans (hpiece.rest.trans ?_))
    rw [← hparts, List.append_assoc]
  rw [hrests] at hcut htaken
  have hne : u ++ after.rest ≠ [] := by
    intro hnil
    rw [hnil, List.append_nil] at hcut
    rw [hcut] at hlast
    exact hclear (List.mem_of_getLast? hlast)
  have hends : Body.endsName (u ++ (after.rest ++ rest)) = true := by
    rw [← List.append_assoc, Body.endsName_append hne]
    refine h.closing name _ (hcut.trans (List.append_assoc ..)) hown ?_
    rw [htaken]
    exact hname.symm
  have htext : c.rest ++ rest = "</" ++ name ++ (u ++ (after.rest ++ rest)) := by
    rw [hcut]
    simp
  rw [htext, Body.length_closing_succ depth (lower_of_isTemplate hown) hends,
    h.length_end hread hpiece hrest depth hbare hparts.symm (by simp), ← hparts]
  simp only [String.reduceToList, List.length_append, List.length_cons, List.length_nil]
  omega

/-- What an event of a template is in a block. -/
theorem Clear.length_read (hend : c.rest ≠ []) (hlast : c.rest.getLast? = some '>')
    {depth depth' : Nat} (hleads : Leads event depth depth') :
    Body.length "template" depth (c.rest ++ rest) =
      piece.length + Body.length "template" depth' (after.rest ++ rest) := by
  have hplain := fun hplain => h.length_plain hread hpiece hrest depth hend hplain
  cases step_of_read hread with
  | @closing name span stop hstarts hname =>
    have hdepth : depth = depth' + (isTemplate name).toNat := hleads
    cases hown : isTemplate name with
    | true =>
      rw [hdepth, hown]
      exact h.length_closing hpiece hread hrest hlast hstarts hname rfl hown depth'
    | false =>
      rw [hown] at hdepth
      rw [← show depth = depth' from hdepth]
      rw [hname] at hown
      exact hplain (not_isSign_of_closing hstarts hown)
  | @comment content node _ hcomment =>
    rw [show depth' = depth from hleads]
    have hreads := Cursor.reads_comment? hcomment
    have hparts : piece = "<!--" ++ (content ++ "-->") :=
      List.append_cancel_right (hpiece.rest.symm.trans hreads.rest)
    rw [hpiece.rest, hparts, List.append_assoc]
    exact Body.length_append_of_comment depth (clear_of_comment? hcomment) _
  | @selfClosing head node _ hstarts htag hcloses =>
    rw [show depth' = depth from hleads]
    cases hown : isTemplate head.tag with
    | true =>
      rw [h.length_tag hpiece hstarts htag hown depth, hcloses]
      rfl
    | false =>
      rw [tag_of_readTag htag] at hown
      exact hplain (not_isSign_of_element hstarts hown)
  | @complete head node opening _ hstarts htag hown =>
    rw [show depth' = depth from hleads]
    rw [tag_of_readTag htag] at hown
    exact hplain (not_isSign_of_element hstarts hown)
  | @opened head _ hstarts htag hopens =>
    have hdepth : depth' = depth + (isTemplate head.tag).toNat := hleads
    cases hown : isTemplate head.tag with
    | true =>
      rw [h.length_tag hpiece hstarts htag hown depth, hopens, hdepth, hown]
      rfl
    | false =>
      rw [hown] at hdepth
      rw [show depth' = depth from hdepth]
      rw [tag_of_readTag htag] at hown
      exact hplain (not_isSign_of_element hstarts hown)
  | plain hclosing hcomment helement hfound =>
    have hdepth : depth' = depth := by
      cases event with
      | none => exact hleads
      | some event =>
        obtain ⟨node, rfl⟩ := hfound event rfl
        exact hleads
    rw [hdepth]
    refine hplain fun hsign => ?_
    rcases isSign_cases hsign with hsign | ⟨hsign, -⟩ | ⟨hsign, -⟩
    · exact hcomment hsign
    · exact hclosing hsign
    · rw [helement] at hsign
      cases hsign

end

end Event

/-! ### Whole templates -/

/-- Two cursors of a source with text between them. -/
theorem exists_reads_of_length_lt {source : Text} {c d : Cursor} (hc : c.In source)
    (hd : d.In source) (hlt : d.rest.length < c.rest.length) : ∃ t, c.Reads t d := by
  obtain ⟨before, hbefore⟩ := hc
  obtain ⟨before', hbefore'⟩ := hd
  have hcut : before ++ c.rest = before' ++ d.rest := hbefore.rest.symm.trans hbefore'.rest
  rcases List.append_eq_append_iff.1 hcut with ⟨t, rfl, hrest⟩ | ⟨t, rfl, hrest⟩
  · refine ⟨t, hrest, ?_⟩
    rw [hbefore'.offset, hbefore.offset, Text.size_append]
    omega
  · rw [hrest, List.length_append] at hlt
    omega

/-- How many `template` elements are open. -/
def templateDepth (frames : List Frame) : Nat :=
  frames.countP fun frame => isTemplate frame.head.tag

theorem templateDepth_cons (frame : Frame) (frames : List Frame) :
    templateDepth (frame :: frames) = templateDepth frames + (isTemplate frame.head.tag).toNat := by
  rw [templateDepth, List.countP_cons]
  cases isTemplate frame.head.tag <;> rfl

open Event in
/-- A template is passed over to its end by one who looks only for comments and `template` tags. -/
theorem length_scan {source rest : Text} (hrest : rest.head? = some '<') (c : Cursor)
    (hin : c.In source) (h : ∀ d ∈ starts c, Clear d)
    (hlast : c.rest ≠ [] → c.rest.getLast? = some '>') :
    ∀ {nodes result : List Node} {frames : List Frame},
      build (scan c) nodes frames = .ok result →
      Body.length "template" (templateDepth frames) (c.rest ++ rest) =
        c.rest.length + Body.length "template" 0 rest := by
  induction c using scan_induction with
  | stop c hend =>
    intro nodes result frames hbuild
    rw [scan_of_end hend] at hbuild
    cases frames with
    | nil => simp [hend, templateDepth]
    | cons frame frames => cases hbuild
  | failed c fault hend hread =>
    intro nodes result frames hbuild
    rw [scan_of_error hend hread] at hbuild
    cases hbuild
  | next c event after hend hread ih =>
    intro nodes result frames hbuild
    rw [scan_of_read hend hread] at hbuild
    have hafter : after.In source := by
      have houtcome := read_outcome hin hend
      rw [hread] at houtcome
      exact houtcome.1
    obtain ⟨piece, hpiece⟩ := exists_reads_of_length_lt hin hafter (length_read_lt hend hread)
    have hlast' : after.rest ≠ [] → after.rest.getLast? = some '>' := by
      intro hne
      have := hlast hend
      rwa [hpiece.rest, List.getLast?_append_of_ne_nil _ hne] at this
    rw [starts_of_read hend hread, List.forall_mem_cons] at h
    have hih := @ih hafter h.2 hlast'
    have hstep : ∀ {frames'}, Leads event (templateDepth frames) (templateDepth frames') →
        Body.length "template" (templateDepth frames') (after.rest ++ rest) =
          after.rest.length + Body.length "template" 0 rest →
        Body.length "template" (templateDepth frames) (c.rest ++ rest) =
          c.rest.length + Body.length "template" 0 rest := by
      intro frames' hleads hnext
      rw [h.1.length_read hpiece hread hrest hend (hlast hend) hleads, hnext, hpiece.rest,
        List.length_append]
      omega
    cases event with
    | none => exact hstep rfl (hih hbuild)
    | some event =>
      rw [Option.toList_some, List.singleton_append] at hbuild
      cases event with
      | complete node => exact hstep rfl (hih hbuild)
      | opened head => exact hstep (templateDepth_cons ⟨head, nodes⟩ frames) (hih hbuild)
      | closed name span stop =>
        cases frames with
        | nil => cases hbuild
        | cons frame frames =>
          rw [build] at hbuild
          split at hbuild
          · rename_i hname
            refine hstep ?_ (hih hbuild)
            rw [hname]
            exact templateDepth_cons frame frames
          · cases hbuild
      | failed fault => cases hbuild

/-! ### Other contents of texts -/

namespace Event

/-- A text, or blanks where one could be. -/
def IsText (event : Option Event) : Prop :=
  ∀ e ∈ event, ∃ content span, e = .complete (.text content span)

theorem isText_textNode? (content : Text) (span : Span) :
    IsText ((textNode? content span).map .complete) := by
  intro e he
  obtain ⟨node, hnode, rfl⟩ := Option.map_eq_some_iff.1 he
  unfold textNode? at hnode
  split at hnode
  · cases hnode
  · cases hnode
    exact ⟨content, span, rfl⟩

/-- However the contents of texts are cut, the same is read but for these. -/
theorem read_of_readBy {cut : Span → Text → Option Text} {c after : Cursor} {event : Option Event}
    (h : readBy cut c = .ok (event, after)) :
    ∃ event', read c = .ok (event', after) ∧ (event' = event ∨ IsText event' ∧ IsText event) := by
  cases hmarkup : startsMarkup c.rest with
  | true => exact ⟨event, readBy_of_markup cut hmarkup ▸ h, .inl rfl⟩
  | false =>
    rw [readBy_of_text cut hmarkup, readTextBy] at h
    split at h
    · cases h
    · cases h
      exact ⟨_, read_of_text hmarkup, .inr ⟨isText_textNode? _ _, isText_textNode? _ _⟩⟩

end Event

theorem build_isText {event : Option Event} (h : Event.IsText event) (events : List Event)
    (nodes : List Node) (frames : List Frame) :
    ∃ nodes', build (event.toList ++ events) nodes frames = build events nodes' frames := by
  cases event with
  | none => exact ⟨nodes, rfl⟩
  | some e =>
    obtain ⟨content, span, rfl⟩ := h e rfl
    exact ⟨.text content span :: nodes, rfl⟩

open Event in
/-- Whether a source is nested rightly does not depend on the contents of its texts. -/
theorem exists_build_of_scanBy {cut : Span → Text → Option Text} (c : Cursor) :
    ∀ {nodes result : List Node} {frames : List Frame},
      build (scanBy cut c) nodes frames = .ok result →
      ∀ (nodes' : List Node) (frames' : List Frame),
        frames'.map Frame.head = frames.map Frame.head →
        ∃ result', build (scan c) nodes' frames' = .ok result' := by
  induction c using scan_induction with
  | stop c hend =>
    intro nodes result frames h nodes' frames' hframes
    rw [scanBy_of_end hend] at h
    cases frames with
    | nil =>
      rw [List.map_nil, List.map_eq_nil_iff] at hframes
      rw [scan_of_end hend, hframes]
      exact ⟨_, rfl⟩
    | cons frame frames => cases h
  | failed c fault hend hread =>
    intro nodes result frames h
    cases hcut : readBy cut c with
    | error found =>
      rw [scanBy_of_error hend hcut] at h
      cases h
    | ok found =>
      obtain ⟨event', hevent, -⟩ := read_of_readBy hcut
      rw [hread] at hevent
      cases hevent
  | next c event' after hend hread ih =>
    intro nodes result frames h nodes' frames' hframes
    cases hcut : readBy cut c with
    | error found =>
      rw [scanBy_of_error hend hcut] at h
      cases h
    | ok found =>
      obtain ⟨event, last⟩ := found
      obtain ⟨other, hevent, hsame⟩ := read_of_readBy hcut
      rw [hread] at hevent
      cases hevent
      rw [scanBy_of_read hend hcut] at h
      rw [scan_of_read hend hread]
      rcases hsame with rfl | ⟨hother, hevent⟩
      · cases event' with
        | none => exact ih h nodes' frames' hframes
        | some event =>
          cases event with
          | complete node => exact ih h (node :: nodes') frames' hframes
          | opened head => exact ih h [] (⟨head, nodes'⟩ :: frames') (by simp [hframes])
          | failed fault => cases h
          | closed name span stop =>
            cases frames with
            | nil => cases h
            | cons frame frames =>
              obtain ⟨frame', frames', rfl⟩ : ∃ a as, frames' = a :: as := by
                cases frames' with
                | nil => cases hframes
                | cons a as => exact ⟨a, as, rfl⟩
              rw [List.map_cons, List.map_cons, List.cons.injEq] at hframes
              rw [Option.toList_some, List.singleton_append, build] at h ⊢
              rw [hframes.1]
              split at h
              · rename_i hname
                rw [if_pos hname]
                exact ih h _ frames' hframes.2
              · cases h
      · obtain ⟨others, hothers⟩ := build_isText hother (scan after) nodes' frames'
        obtain ⟨texts, htexts⟩ := build_isText hevent (scanBy cut after) nodes frames
        rw [htexts] at h
        rw [hothers]
        exact ih h others frames' hframes

/-- A template that is read is nested rightly. -/
theorem exists_build_of_read {source : Text} {root : Node} (h : read source = .ok root) :
    ∃ nodes, build (Event.scan (.start source)) [] [] = .ok nodes := by
  unfold read at h
  split at h
  · cases h
  · rename_i hnodes
    exact exists_build_of_scanBy _ hnodes [] [] rfl

/-- The block that holds a template and says nothing else. -/
def block (source : Text) : Block := ⟨"template", [], source, .empty 0, .empty 0⟩

theorem named_block (source : Text) : (block source).Named where
  name := (by decide : Cursor.isBlockName "template" = true)
  small := (by decide : Text.lower "template" = ("template" : Text))
  keys := by rintro a ⟨⟩

theorem closed_block {source : Text} {nodes : List Node}
    (hbuild : build (Event.scan (.start source)) [] [] = .ok nodes)
    (hlast : source.getLast? = some '>') (h : ∀ c ∈ Event.starts (.start source), Event.Clear c) :
    (block source).Closed := by
  intro rest
  have hrest : ("</" ++ "template" ++ '>' :: rest : Text).head? = some '<' := rfl
  have hscan := length_scan hrest _ (Cursor.in_start source) h (fun _ => hlast) hbuild
  rw [Body.length_closing_zero rfl rfl] at hscan
  exact hscan

/-- A template that cannot be mistaken is the whole content of the block that it stands in. -/
theorem content_of_template {source : Text} {root : Node} (hread : read source = .ok root)
    (hlast : source.getLast? = some '>') (h : ∀ c ∈ Event.starts (.start source), Event.Clear c) :
    ∃ b, Component.read ("<template>" ++ source ++ "</template>") =
        .ok ⟨some b, none, [], [], []⟩ ∧ b.content = source := by
  obtain ⟨nodes, hbuild⟩ := exists_build_of_read hread
  have hreadable : ∀ item ∈ [Component.Item.block (block source)], item.Readable := by
    intro item hitem
    rw [List.mem_singleton.1 hitem]
    exact ⟨named_block source, closed_block hbuild hlast h⟩
  have hprints :
      Component.Prints [.block (block source)] ("<template>" ++ source ++ "</template>") := by
    have htext : ("<template>" ++ source ++ "</template>" : Text) =
        '<' :: ("template" ++ '>' :: (source ++ ("</" ++ "template" ++ '>' :: []))) := by simp
    rw [htext]
    exact @Component.Prints.block (block source) [] [] [] [] rfl .nil (.nil rfl)
  obtain ⟨items, halike, hitems⟩ :=
    Component.readFrom_printed hprints hreadable Component.empty 0
  obtain ⟨item, rfl, hitem⟩ := List.map_eq_singleton_iff.1 halike
  cases item with
  | comment c => cases hitem
  | block b =>
    have hb : b.unplaced = (block source).unplaced := Component.Item.block.inj hitem
    have hname : b.name = ("template" : Text) := congrArg Block.name hb
    have hcontent : b.content = source := congrArg Block.content hb
    refine ⟨b, ?_, hcontent⟩
    rw [Component.read]
    refine hitems.trans ?_
    rw [List.foldlM_cons, Component.add, if_pos hname]
    rfl

/-- A nested `template` with a bracket in a value, and a closing tag in a comment. -/
def nestedSample : Text :=
  "<p><template a=\">\">\x7b\x7bb\x7d\x7d<!--</template>--></template\n></p>"

theorem clear_nestedSample : ∀ c ∈ Event.starts (.start nestedSample), Event.Clear c := by
  have hinside : ∀ c ∈ Event.starts (.start nestedSample),
      ∀ found ∈ (Event.read c).toOption, ∀ i < c.rest.length, 0 < i →
        found.2.rest.length < (c.rest.drop i).length → Body.IsSign "template" (c.rest.drop i) →
        Body.IsEnclosing "template" c.rest := by
    decide +kernel
  have hnames : ∀ c ∈ Event.starts (.start nestedSample),
      isTemplate ((c.rest.drop 2).takeWhile Cursor.isTagChar) = true →
      Body.endsName ((c.rest.drop 2).dropWhile Cursor.isTagChar) = true := by
    decide +kernel
  have htags : ∀ c ∈ Event.starts (.start nestedSample),
      isTemplate ((c.rest.drop 1).takeWhile Cursor.isTagChar) = true →
      c = ⟨3, nestedSample.drop 3⟩ := by
    decide +kernel
  have htag : (Event.readTag ⟨3, nestedSample.drop 3⟩).toOption.map
      (fun found => (found.1.tag, found.1.selfClosing, found.2.rest)) =
        some (("template" : Text), false, nestedSample.drop 19) := by
    decide +kernel
  have htail : Body.TagTail (" a=" ++ "\">\">") false :=
    .append (by decide) (@Body.TagTail.quoted '"' ">" _ _ (by decide) (by decide) .last)
  intro c hc
  refine ⟨?_, ?_, ?_⟩
  · intro event after hread i hi hlt
    have hbound : i < c.rest.length := by
      rw [List.length_drop] at hlt
      omega
    exact hinside c hc (event, after) (by rw [hread]; rfl) i hbound hi hlt
  · intro name rest hrest hname htaken
    have hdrop : c.rest.drop 2 = name ++ rest := by rw [hrest]; rfl
    have hends := hnames c hc
    have hparts := @List.takeWhile_append_dropWhile _ Cursor.isTagChar (name ++ rest)
    rw [htaken] at hparts
    rw [hdrop, htaken, List.append_cancel_left hparts] at hends
    exact hends hname
  · intro head after _ hread hname
    have hplace := htags c hc (by rwa [← Event.tag_of_readTag hread])
    rw [hplace] at hread ⊢
    rw [hread, Except.toOption, Option.map_some, Option.some.injEq, Prod.mk.injEq,
      Prod.mk.injEq] at htag
    obtain ⟨htag, hselfClosing, hafter⟩ := htag
    rw [htag, hselfClosing, hafter]
    exact ⟨_, by decide +kernel, by decide, htail⟩

theorem content_of_template_nested :
    nestedSample.getLast? = some '>' ∧
      ∃ root, read nestedSample = .ok root ∧
        ∃ b, Component.read ("<template>" ++ nestedSample ++ "</template>") =
          .ok ⟨some b, none, [], [], []⟩ ∧ b.content = nestedSample := by
  have hlast : nestedSample.getLast? = some '>' := by decide +kernel
  have hsome : ∃ root ∈ (read nestedSample).toOption, root.subtree.length = 4 := by
    decide +kernel
  obtain ⟨root, hroot, -⟩ := hsome
  have hread : read nestedSample = .ok root := eq_ok_of_toOption hroot
  exact ⟨hlast, root, hread, content_of_template hread hlast clear_nestedSample⟩

/-- A tag that is self-closing for a component, but has a value that ends with a slash. -/
def slashSample : Text := "<div><template a=b/></template></div>"

/-- Not every template is the whole content of its block. -/
theorem exists_template_cut_short :
    ∃ source root component b, read source = .ok root ∧ ("</div>" : Text) <:+ source ∧
      Component.read ("<template>" ++ source ++ "</template>") = .ok component ∧
      component.template = some b ∧ b.content = "<div><template a=b/>" ∧ b.content ≠ source := by
  have hsome : ∃ root ∈ (read slashSample).toOption, root.subtree.length = 2 := by
    decide +kernel
  obtain ⟨root, hroot, -⟩ := hsome
  have hfound : ∃ component ∈
      (Component.read ("<template>" ++ slashSample ++ "</template>")).toOption,
      ∃ b ∈ component.template, b.content = "<div><template a=b/>" := by
    decide +kernel
  obtain ⟨component, hcomponent, b, hb, hcontent⟩ := hfound
  refine ⟨slashSample, root, component, b, eq_ok_of_toOption hroot, by decide,
    eq_ok_of_toOption hcomponent, hb, hcontent, ?_⟩
  rw [hcontent]
  decide

end Template

end Wxml
