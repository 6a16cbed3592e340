import Wxml.Proofs.CursorLoops
import Wxml.Proofs.LayoutContent
import Wxml.Proofs.LayoutTokens

/-!
# Streams of tokens

Markup is split into tokens one by one (`Token.loop`).  Every token takes at least one character, so
the stream ends, and nothing is left out between tokens.  A raw content is told by the opening tag
right before it: `Token.RawOf` says how the two belong together, and `Token.raw_of_scan` that they
do.

`Token.ofText_lossless` is the result.
-/

namespace Wxml

namespace Layout

namespace Token

open Text

open Cursor.Loop (Effect)

/-! ### The stream ends -/

/-- The tokens that were read, the last first, the element whose raw content may come next, and the
place after them. -/
structure Reading where
  tokens : List Token
  element : Option RawElement
  cursor : Cursor

/-- One more token. -/
def turn (o : Options) (s : Reading) : Effect Reading (List Token) :=
  if s.cursor.rest = [] then .ends s.tokens.reverse
  else
    let token := next s.element s.cursor.rest
    .goesOn ⟨token :: s.tokens, token.rawAfter o, s.cursor.advance token.source.length⟩

def loop (o : Options) : Cursor.Loop Reading (List Token) := .ofFunction Reading.cursor (turn o)

theorem loop_progressive (o : Options) (source : Text) : (loop o).Progressive source := by
  refine Cursor.Loop.progressive_ofFunction fun s after hin hturn => ?_
  unfold turn at hturn
  split at hturn
  · cases hturn
  · rename_i hend
    cases hturn
    have hlength := length_next s.element hend
    have hpos := List.length_pos_iff.2 hend
    refine ⟨hin.reads (s.cursor.reads_advance _), ?_⟩
    simp only [Cursor.advance_rest, List.length_drop]
    omega

theorem value_turn (o : Options) (s : Reading) :
    (turn o s).value (fun s => s.tokens.reverse ++ scan o s.element s.cursor.rest) =
      s.tokens.reverse ++ scan o s.element s.cursor.rest := by
  unfold turn
  split
  · rename_i hend
    rw [hend, scan_nil, List.append_nil]
    rfl
  · rename_i hend
    rw [scan, dif_neg hend]
    simp [Effect.value]

theorem loop_ends (o : Options) (source : Text) :
    (loop o).Ends ⟨[], none, .start source⟩ (ofText o source) :=
  (loop_progressive o source).ends_of_value (value_turn o) (s := ⟨[], none, .start source⟩)
    (Cursor.in_start source)

/-! ### Raw content -/

/-- With `rest` after it, a text goes up to the first occurrence of a pattern, or to the end. -/
structure UpTo (pattern t rest : Text) : Prop where
  clear : ∀ u, u ≠ [] → u <:+ t → ¬ pattern <+: u ++ rest
  ends : rest = [] ∨ pattern <+: rest

/-- How a raw content belongs to the opening tag before it, with `rest` after it.  The name in the
tag is that of a script, or else of an element that is copied as it stands, and the content goes up
to the first closing tag of that name. -/
structure RawOf (o : Options) (name markup content : Text) (script : Bool) (rest : Text) :
    Prop where
  inTag : '<' :: name <+: markup
  kind : script = true ∧ name ∈ scriptTags ∨
    script = false ∧ name ∉ scriptTags ∧ name ∈ o.unformatted
  upTo : UpTo ("</" ++ name) content rest

theorem kind_of_rawAfter {o : Options} {name markup : Text} {e : RawElement}
    (h : (opened name markup).rawAfter o = some e) :
    e.name = name ∧ (e.script = true ∧ name ∈ scriptTags ∨
      e.script = false ∧ name ∉ scriptTags ∧ name ∈ o.unformatted) := by
  simp only [rawAfter] at h
  split at h
  · rename_i hscript
    cases h
    exact ⟨rfl, .inl ⟨rfl, by simpa using hscript⟩⟩
  · rename_i hscript
    split at h
    · rename_i hcopied
      cases h
      exact ⟨rfl, .inr ⟨rfl, by simpa using hscript, by simpa using hcopied⟩⟩
    · cases h

theorem ofTag_inTag {markup tag name : Text} (hhead : tag.head? = some '<')
    (h : ofTag tag = opened name markup) : '<' :: name <+: markup := by
  unfold ofTag at h
  split at h
  · cases h
  · simp only at h
    split at h
    · cases h
    · cases h
      obtain ⟨rest, rfl⟩ := List.head?_eq_some_iff.1 hhead
      exact List.cons_prefix_cons.2 ⟨rfl, List.takeWhile_prefix _⟩

theorem next_inTag {element : Option RawElement} {t name markup : Text}
    (h : next element t = opened name markup) : '<' :: name <+: markup := by
  have hfirst (h : first t = opened name markup) : '<' :: name <+: markup := by
    unfold first at h
    split at h
    · unfold ofComment at h
      split at h <;> cases h
    · split at h
      · rename_i hstarts
        split at h
        · refine ofTag_inTag ?_ h
          rw [List.head?_take, if_neg (by omega)]
          exact head?_of_startsMarkup hstarts
        · cases h
      · cases h
  unfold next at h
  split at h
  · exact hfirst h
  · simp only at h
    split at h
    · exact hfirst h
    · cases h

theorem first_ne_raw (t content : Text) (script : Bool) : first t ≠ raw content script := by
  unfold first
  split
  · unfold ofComment
    split <;> simp
  · split
    · split
      · unfold ofTag
        split
        · simp
        · simp only
          split <;> simp
      · simp
    · simp

/-- A raw content is read only where one may come. -/
theorem next_raw {element : Option RawElement} {t content : Text} {script : Bool}
    (h : next element t = raw content script) :
    ∃ e, element = some e ∧ e.script = script ∧ content = (breakOn e.closing t).1 := by
  unfold next at h
  split at h
  · exact absurd h (first_ne_raw _ _ _)
  · rename_i e
    simp only at h
    split at h
    · exact absurd h (first_ne_raw _ _ _)
    · cases h
      exact ⟨e, rfl, rfl, rfl⟩

theorem upTo_breakOn (pattern t : Text) :
    UpTo pattern (breakOn pattern t).1 (breakOn pattern t).2 :=
  ⟨fun _ hu hsuffix => not_isPrefix_of_breakOn pattern t hu hsuffix, breakOn_snd_cases pattern t⟩

/-- A raw content among the tokens is the first one, if it may come there, or stands right after
the opening tag it belongs to. -/
theorem raw_of_scan (o : Options) (element : Option RawElement) (t : Text) {content : Text}
    {script : Bool} {after : List Token} :
    ∀ {before : List Token}, scan o element t = before ++ raw content script :: after →
      (before = [] ∧ ∃ e, element = some e ∧ e.script = script ∧
          UpTo e.closing content (after.map source).flatten) ∨
        ∃ front name markup, before = front ++ [opened name markup] ∧
          RawOf o name markup content script (after.map source).flatten := by
  fun_induction scan o element t with
  | case1 => simp
  | case2 element t hend token =>
    rename_i ih
    intro before h
    cases before with
    | nil =>
      obtain ⟨hraw, hafter⟩ := List.cons.inj h
      have hraw : next element t = raw content script := hraw
      obtain ⟨e, helement, hscript, hcontent⟩ := next_raw hraw
      refine .inl ⟨rfl, e, helement, hscript, ?_⟩
      have hrest : (after.map source).flatten = (breakOn e.closing t).2 := by
        rw [← hafter, flatten_source_scan]
        show t.drop (next element t).source.length = _
        rw [hraw, source, hcontent]
        nth_rewrite 2 [← breakOn_append e.closing t]
        exact List.drop_left
      rw [hcontent, hrest]
      exact upTo_breakOn e.closing t
    | cons first before =>
      obtain ⟨hfirst, hmore⟩ := List.cons.inj h
      subst hfirst
      rcases ih hmore with ⟨rfl, e, hafter, rfl, hupTo⟩ | ⟨front, name, markup, rfl, hraw⟩
      · obtain ⟨markup, hopened⟩ := exists_opened_of_rawAfter hafter
        rw [hopened] at hafter
        obtain ⟨-, hkind⟩ := kind_of_rawAfter hafter
        exact .inr ⟨[], e.name, markup, by rw [hopened]; rfl, next_inTag hopened, hkind, hupTo⟩
      · exact .inr ⟨token :: front, name, markup, rfl, hraw⟩

/-! ### Nothing is lost -/

theorem source_ne_nil_of_mem_scan {o : Options} {element : Option RawElement} {t : Text}
    {token : Token} (h : token ∈ scan o element t) : token.source ≠ [] := by
  fun_induction scan o element t with
  | case1 => cases h
  | case2 element t hend first ih =>
    rcases List.mem_cons.1 h with rfl | hmore
    · exact List.length_pos_iff.1 (length_next element hend)
    · exact ih hmore

/-- The stream of the tokens of a text ends.  None of them is empty, and together they are the text.
A raw content stands right after the opening tag it belongs to. -/
theorem ofText_lossless (o : Options) (t : Text) :
    (loop o).Progressive t ∧ (loop o).Ends ⟨[], none, .start t⟩ (ofText o t) ∧
      (∀ token ∈ ofText o t, token.source ≠ []) ∧ ((ofText o t).map source).flatten = t ∧
      ∀ before content script after, ofText o t = before ++ raw content script :: after →
        ∃ front name markup, before = front ++ [opened name markup] ∧
          RawOf o name markup content script (after.map source).flatten := by
  refine ⟨loop_progressive o t, loop_ends o t, fun token => source_ne_nil_of_mem_scan,
    flatten_source_scan o none t, fun before content script after h => ?_⟩
  rcases raw_of_scan o none t h with ⟨-, e, hnone, -⟩ | hafter
  · cases hnone
  · exact hafter

/-- A script and an element that is copied as it stands; the one after them is empty. -/
def streamSample : Text := "<wxs>é</wxs>a<pre><b></pre><pre></pre>"

def streamOptions : Options := { Options.default with unformatted := ["pre"] }

/-- The tokens of the sample before the text of the first `pre`. -/
def streamFront : List Token :=
  [opened "wxs" "<wxs>", raw "é" true, closed "wxs" "</wxs>", text "a", opened "pre" "<pre>"]

/-- The tokens after it: the second `pre` is empty and has no text. -/
def streamBack : List Token :=
  [closed "pre" "</pre>", opened "pre" "<pre>", closed "pre" "</pre>"]

theorem ofText_lossless_sample :
    ofText streamOptions streamSample = streamFront ++ raw "<b>" false :: streamBack ∧
      (raw "<b>" false).source ≠ [] ∧
      ∃ front name markup, streamFront = front ++ [opened name markup] ∧
        RawOf streamOptions name markup "<b>" false (streamBack.map source).flatten := by
  have htokens : ofText streamOptions streamSample =
      streamFront ++ raw "<b>" false :: streamBack := by decide +kernel
  obtain ⟨-, -, hne, -, hraw⟩ := ofText_lossless streamOptions streamSample
  refine ⟨htokens, hne _ ?_, hraw _ _ _ _ htokens⟩
  rw [htokens]
  exact List.mem_append_right _ List.mem_cons_self

end Token

end Layout

end Wxml
