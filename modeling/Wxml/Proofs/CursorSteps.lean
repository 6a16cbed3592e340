import Mathlib.Logic.Relation
import Wxml.Cursor.Action
import Wxml.Proofs.BalancedBody
import Wxml.Proofs.Displacement
import Wxml.Proofs.RawLines

/-!
# Any number of actions

A cursor that comes from the start of a source stays at a place of it (`Cursor.Placed`), whatever is
done with it: its offset is the end of a character, and the source from there on is what it has
before it.  `Action.Takes` says which text an action passes over, by what it found, and
`Action.reads_run` that it does.  All else about one action (`Action.Sound`) follows from that, and
`Action.runAll_sound` goes on to any sequence of them.

The content of a block is read in turns (`Body.Turn`).  Some of them move by the bytes of the name
that was looked for and not of the text that was found, which may be in another case.
`Text.size_eq_of_lower` says that both have the same size, for any name.
-/

namespace Wxml

namespace Text

/-! ### Case and bytes -/

theorem utf8Size_toLower (c : Char) : c.toLower.utf8Size = c.utf8Size := by
  unfold Char.toLower
  split
  · rename_i hupper
    have hle : c.val.toNat ≤ 90 := UInt32.le_iff_toNat_le.1 hupper.2
    have hsize : c.utf8Size = 1 :=
      Char.utf8Size_eq_one_iff.2 (UInt32.le_iff_toNat_le.2 (hle.trans (by decide)))
    rw [hsize, Char.utf8Size_eq_one_iff, UInt32.le_iff_toNat_le, UInt32.toNat_add]
    exact (Nat.mod_le _ _).trans ((Nat.add_le_add_right hle 32).trans (by decide))
  · rfl

theorem size_lower (t : Text) : size (lower t) = size t := by
  induction t with
  | nil => rfl
  | cons c t ih => exact congrArg₂ (· + ·) (utf8Size_toLower c) ih

theorem size_eq_of_lower {s t : Text} (h : lower s = lower t) : size s = size t := by
  rw [← size_lower s, h, size_lower]

end Text

namespace Cursor

/-! ### Places of a source -/

/-- A cursor stands between characters of a source, and before it is the source from there on. -/
structure Placed (source : Text) (c : Cursor) : Prop where
  boundary : Text.Boundary source c.offset
  le_size : c.offset ≤ Text.size source
  rest : Text.dropBytes? c.offset source = some c.rest

theorem In.placed {source : Text} {c : Cursor} (h : c.In source) : c.Placed source where
  boundary := h.boundary
  le_size := (h.covers (.refl c)).stop_le
  rest := by
    obtain ⟨before, hrest, hoffset⟩ := h
    simp only [start, Nat.zero_add] at hrest hoffset
    rw [hrest, hoffset, Text.dropBytes?_size]

theorem Reads.le {c d : Cursor} {t : Text} (h : c.Reads t d) : c.offset ≤ d.offset := by
  rw [h.offset]
  omega

theorem Reads.advance_eq {c d : Cursor} {t : Text} (h : c.Reads t d) : c.advance t.length = d := by
  obtain ⟨hrest, hoffset⟩ := h
  simp only [advance, hrest, List.take_left, List.drop_left, ← hoffset]

theorem Reads.eq_of_nil {c d : Cursor} (h : c.Reads [] d) : d = c := h.advance_eq.symm

theorem advance_advance (c : Cursor) (m n : Nat) :
    (c.advance m).advance n = c.advance (m + n) := by
  simp only [advance, List.drop_drop, List.take_add, Text.size_append, Nat.add_assoc]

theorem reads_next? {c d : Cursor} {e : Char} (h : c.next? = some (e, d)) : c.Reads [e] d := by
  obtain ⟨e, hpeek, heq⟩ := Option.map_eq_some_iff.1 h
  cases heq
  obtain ⟨rest, hrest⟩ := List.head?_eq_some_iff.1 hpeek
  exact reads_advance_length (t := [e]) hrest

theorem comment?_start (c : Cursor) :
    c.comment? = (start c.rest).comment?.map (Prod.map id (·.shift c.offset)) := by
  have hstart : (start c.rest).shift c.offset = c := by simp [shift, start]
  rw [← comment?_shift, hstart]

end Cursor

/-! ### Turns in the content of a block -/

namespace Body

/-- Neither a comment nor a closing tag of the name is ahead. -/
def Passable (tag t : Text) : Prop :=
  ¬ ("<!--" : Text) <+: t ∧ ¬ startsTag ("</" ++ tag) t = true

/-- One turn of reading the content of a block.  A tag is passed over by the bytes of the name that
was looked for. -/
inductive Turn (tag : Text) : Cursor → Cursor → Prop
  | comment {c d : Cursor} {content : Text} (read : c.comment? = some (content, d)) : Turn tag c d
  | unendedComment {c : Cursor} (starts : c.startsWith "<!--" = true) (read : c.comment? = none) :
      Turn tag c c.finish
  | closing {k : Nat} {t after : Text} (found : startsTag ("</" ++ tag) t = true)
      (jump : Text.dropBytes? (Text.size ("</" ++ tag)) t = some after) :
      Turn tag ⟨k, t⟩ ⟨k + Text.size ("</" ++ tag), after⟩
  | opening {k : Nat} {t tail after : Text} {selfClosing : Bool} (first : Passable tag t)
      (found : startsTag ("<" ++ tag) t = true)
      (jump : Text.dropBytes? (Text.size ("<" ++ tag)) t = some (tail ++ after))
      (inTag : TailBefore after tail selfClosing) :
      Turn tag ⟨k, t⟩ ⟨k + Text.size ("<" ++ tag) + Text.size tail, after⟩
  | unendedOpening {k : Nat} {t tail : Text} (first : Passable tag t)
      (found : startsTag ("<" ++ tag) t = true)
      (jump : Text.dropBytes? (Text.size ("<" ++ tag)) t = some tail)
      (inTag : tagRest none tail = (tail.length, false)) :
      Turn tag ⟨k, t⟩ ⟨k + Text.size ("<" ++ tag) + Text.size tail, []⟩
  | plain {c d : Cursor} {e : Char} (first : Passable tag c.rest)
      (other : ¬ startsTag ("<" ++ tag) c.rest = true) (read : c.next? = some (e, d)) : Turn tag c d

variable {tag pattern t : Text}

/-- Where a name was found in any case, the bytes of the one that was looked for end with a
character. -/
theorem exists_jump (h : startsTag pattern t = true) :
    ∃ name rest, t = name ++ rest ∧ name.length = pattern.length ∧
      Text.size name = Text.size pattern ∧ Text.dropBytes? (Text.size pattern) t = some rest := by
  obtain ⟨name, rest, rfl, hname, -⟩ := startsTag_iff.1 h
  have hsize := Text.size_eq_of_lower hname
  exact ⟨name, rest, rfl, length_eq_of_lower hname, hsize, hsize ▸ Text.dropBytes?_size name rest⟩

theorem turn_comment {c d : Cursor} {content : Text}
    (h : (Cursor.start c.rest).comment? = some (content, d)) :
    Turn tag c (c.advance (content.length + 7)) := by
  have hread : c.comment? = some (content, d.shift c.offset) := by
    rw [Cursor.comment?_start, h]
    rfl
  have hplace : c.advance (content.length + 7) = d.shift c.offset := by
    simpa using (Cursor.reads_comment? hread).advance_eq
  rw [hplace]
  exact .comment hread

theorem turn_closing {c : Cursor} (h : startsTag ("</" ++ tag) c.rest = true) :
    Turn tag c (c.advance (tag.length + 2)) := by
  obtain ⟨k, t⟩ := c
  have hturn := h
  obtain ⟨name, rest, rfl, hlength, hsize, hjump⟩ := exists_jump h
  have hplace : (⟨k, name ++ rest⟩ : Cursor).advance (tag.length + 2) =
      ⟨k + Text.size ("</" ++ tag), rest⟩ := by
    have hcount : tag.length + 2 = name.length := by simpa using hlength.symm
    rw [hcount, Cursor.advance_append, hsize]
  rw [hplace]
  exact .closing hturn hjump

theorem turn_opening {c : Cursor} (hfirst : Passable tag c.rest)
    (h : startsTag ("<" ++ tag) c.rest = true) :
    Turn tag c (c.advance (tag.length + (tagRest none (c.rest.drop (tag.length + 1))).1 + 1)) := by
  obtain ⟨k, t⟩ := c
  have hturn := h
  obtain ⟨name, rest, rfl, hlength, hsize, hjump⟩ := exists_jump h
  have hcount : tag.length + 1 = name.length := by simpa using hlength.symm
  have hplace (n : Nat) : (⟨k, name ++ rest⟩ : Cursor).advance (tag.length + n + 1) =
      (⟨k + Text.size ("<" ++ tag), rest⟩ : Cursor).advance n := by
    rw [Nat.add_right_comm, hcount, ← Cursor.advance_advance, Cursor.advance_append, hsize]
  rw [hplace, hcount, List.drop_left]
  -- What follows the name is the rest of a tag, or has no end and is passed over as a whole.
  rcases tagRest_cases rest with hend | ⟨tail, after, selfClosing, rfl, htail⟩
  · have hlast := Cursor.advance_append (k + Text.size ("<" ++ tag)) rest []
    rw [List.append_nil] at hlast
    rw [hend, hlast]
    exact .unendedOpening hfirst hturn hjump hend
  · rw [htail.tagRest_append, Cursor.advance_append]
    exact .opening hfirst hturn hjump htail

/-- The pieces that a content is cut into are turns. -/
theorem turn_ofText {c : Cursor} {kind : Piece} {n : Nat} (hc : c.rest ≠ [])
    (h : Piece.ofText tag c.rest = (kind, n)) : Turn tag c (c.advance (n + 1)) := by
  unfold Piece.ofText at h
  split at h
  · rename_i hstarts
    split at h
    · rename_i content last hcomment
      cases h
      exact turn_comment hcomment
    · rename_i hcomment
      cases h
      rw [Nat.sub_add_cancel (List.length_pos_iff.2 hc)]
      exact .unendedComment hstarts (by rw [Cursor.comment?_start, hcomment]; rfl)
  · rename_i hcomment
    split at h
    · rename_i hclosing
      cases h
      exact turn_closing hclosing
    · rename_i hclosing
      have hfirst : Passable tag c.rest :=
        ⟨fun hstarts => hcomment (List.isPrefixOf_iff_prefix.2 hstarts), hclosing⟩
      split at h
      · rename_i hopening
        cases h
        exact turn_opening hfirst hopening
      · rename_i hopening
        cases h
        obtain ⟨e, t, ht⟩ := List.exists_cons_of_ne_nil hc
        have hnext : c.next? = some (e, c.advance 1) := by simp [Cursor.next?, Cursor.peek?, ht]
        exact .plain hfirst hopening hnext

theorem turns_cons {c : Cursor} {kind : Piece} {n m : Nat} (hc : c.rest ≠ [])
    (h : Piece.ofText tag c.rest = (kind, n))
    (hmore : Relation.ReflTransGen (Turn tag) (c.advance (n + 1)) ((c.advance (n + 1)).advance m)) :
    Relation.ReflTransGen (Turn tag) c (c.advance (n + 1 + m)) := by
  rw [← Cursor.advance_advance]
  exact .head (turn_ofText hc h) hmore

/-- The content of a block is passed over in turns. -/
theorem turns_length (tag : Text) (depth : Nat) (t : Text) (k : Nat) :
    Relation.ReflTransGen (Turn tag) ⟨k, t⟩
      ((⟨k, t⟩ : Cursor).advance (length tag depth t)) := by
  fun_induction length tag depth t generalizing k with
  | case1 => exact .refl
  | case2 c t n hpiece => exact .refl
  | case3 c t n hpiece depth ih => exact turns_cons (by simp) hpiece (ih _)
  | case4 depth c t n hpiece ih => exact turns_cons (by simp) hpiece (ih _)
  | case5 depth c t kind n hclosing hopening hpiece ih => exact turns_cons (by simp) hpiece (ih _)

theorem turns_body (c : Cursor) (tag : Text) :
    Relation.ReflTransGen (Turn tag) c (c.body tag).2 := by
  have hplace : (c.body tag).2 = c.advance (length tag 0 c.rest) :=
    (c.reads_advance (length tag 0 c.rest)).advance_eq
  rw [hplace]
  exact turns_length tag 0 c.rest c.offset

theorem reads_jump {k n : Nat} {after : Text} (h : Text.dropBytes? n t = some after) :
    ∃ name, (⟨k, t⟩ : Cursor).Reads name ⟨k + n, after⟩ := by
  obtain ⟨name, hcut, hsize⟩ := Text.exists_of_dropBytes? h
  exact ⟨name, hcut, by rw [hsize]⟩

theorem Turn.reads {c d : Cursor} (h : Turn tag c d) : ∃ t, c.Reads t d := by
  cases h with
  | comment read => exact ⟨_, Cursor.reads_comment? read⟩
  | unendedComment => exact ⟨_, c.reads_advance _⟩
  | closing _ jump => exact reads_jump jump
  | @opening k t tail after selfClosing _ _ jump =>
    obtain ⟨name, hname⟩ := reads_jump (k := k) jump
    exact ⟨_, hname.trans ⟨rfl, rfl⟩⟩
  | @unendedOpening k t tail _ _ jump =>
    obtain ⟨name, hname⟩ := reads_jump (k := k) jump
    exact ⟨_, hname.trans ⟨(List.append_nil tail).symm, rfl⟩⟩
  | plain _ _ read => exact ⟨_, Cursor.reads_next? read⟩

/-- Turns that start in a source stay in it. -/
theorem placed_turns {source : Text} {c d : Cursor} (h : Relation.ReflTransGen (Turn tag) c d)
    (hc : c.In source) :
    Relation.ReflTransGen (fun a b => Turn tag a b ∧ b.Placed source) c d := by
  induction h using Relation.ReflTransGen.head_induction_on with
  | refl => exact .refl
  | head hturn _ ih =>
    obtain ⟨t, hreads⟩ := hturn.reads
    have hnext := hc.reads hreads
    exact .head ⟨hturn, hnext.placed⟩ (ih hnext)

end Body

namespace Cursor

/-! ### One action -/

/-- Nothing was found. -/
def Finding.isNothing : Finding → Bool
  | truth value => !value
  | text value => value.isNone
  | quoted value => value.isNone
  | bytes _ => false
  | span _ => false

/-- The text in a finding. -/
def Finding.text? : Finding → Option Text
  | text value => value
  | quoted value => value.map Prod.fst
  | truth _ => none
  | bytes _ => none
  | span _ => none

namespace Action

/-- An action that only looks at what is ahead. -/
def looks : Action → Bool
  | peek => true
  | startsWith _ => true
  | rest => true
  | atEnd => true
  | spanFrom _ => true
  | _ => false

/-- An action that gives the whole of what it passes over. -/
def givesAll : Action → Bool
  | next => true
  | takeUntil _ => true
  | takeWhile _ => true
  | tagName => true
  | attributeName => true
  | unquoted => true
  | body _ => true
  | _ => false

/-- The bytes that an action passes over before the text it gives. -/
def margin : Action → Nat
  | quoted => 1
  | comment => 4
  | _ => 0

/-- An action that found something passes over a text. -/
inductive Takes : Action → Finding → Text → Prop
  | nothing {action : Action} {finding : Finding} (none : finding.isNothing = true) :
      Takes action finding []
  | looking {action : Action} {finding : Finding} (looks : action.looks = true) :
      Takes action finding []
  | all {action : Action} {t : Text} (gives : action.givesAll = true) :
      Takes action (.text (some t)) t
  | blanks {t : Text} (blank : ∀ c ∈ t, isBlank c = true) :
      Takes .skipBlanks (.bytes (Text.size t)) t
  | pattern {t : Text} : Takes (.consume t) (.truth true) t
  | quoted {value : Text} {q : Char} (quote : isQuote q = true) :
      Takes .quoted (.quoted (some (value, q))) (q :: (value ++ [q]))
  | comment {content : Text} :
      Takes .comment (.text (some content)) ("<!--" ++ (content ++ "-->"))

theorem looks_of_givesAll {action : Action} (h : action.givesAll = true) :
    action.looks = false := by
  cases action <;> first | rfl | cases h

theorem margin_of_givesAll {action : Action} (h : action.givesAll = true) : action.margin = 0 := by
  cases action <;> first | rfl | cases h

theorem Takes.eq_nil {action : Action} {finding : Finding} {t : Text} (h : Takes action finding t)
    (hnone : finding.isNothing = true ∨ action.looks = true) : t = [] := by
  cases h with
  | nothing => rfl
  | looking => rfl
  | all gives => simp [Finding.isNothing, looks_of_givesAll gives] at hnone
  | blanks => simp [Finding.isNothing, looks] at hnone
  | pattern => simp [Finding.isNothing, looks] at hnone
  | quoted => simp [Finding.isNothing, looks] at hnone
  | comment => simp [Finding.isNothing, looks] at hnone

/-- The text in a finding is what was passed over, but for what encloses it. -/
theorem Takes.exists_margins {action : Action} {finding : Finding} {s t : Text}
    (h : Takes action finding s) (hlooks : action.looks = false) (ht : finding.text? = some t) :
    ∃ before after, s = before ++ (t ++ after) ∧ Text.size before = action.margin := by
  cases h with
  | nothing none => cases finding <;> simp_all [Finding.isNothing, Finding.text?]
  | looking looks => rw [hlooks] at looks; cases looks
  | all gives =>
    cases ht
    exact ⟨[], [], by simp, (margin_of_givesAll gives).symm⟩
  | blanks => cases ht
  | pattern => cases ht
  | @quoted value q quote =>
    cases ht
    refine ⟨[q], [q], rfl, ?_⟩
    rcases (by simpa [isQuote] using quote : q = '"' ∨ q = '\'') with rfl | rfl
    · rfl
    · rfl
  | comment =>
    cases ht
    exact ⟨"<!--", "-->", rfl, by decide⟩

theorem reads_found {α : Type} {c : Cursor} {action : Action} {f : Option α → Finding}
    {result : Option (α × Cursor)} (hnone : (f none).isNothing = true)
    (hsome : ∀ a d, result = some (a, d) → ∃ t, Takes action (f (some a)) t ∧ c.Reads t d) :
    ∃ t, Takes action (c.found f result).1 t ∧ c.Reads t (c.found f result).2 := by
  cases result with
  | none => exact ⟨[], .nothing hnone, .refl c⟩
  | some found => exact hsome found.1 found.2 rfl

/-- What an action passes over. -/
theorem reads_run (c : Cursor) (action : Action) :
    ∃ t, Takes action (run c action).1 t ∧ c.Reads t (run c action).2 := by
  cases action with
  | peek => exact ⟨[], .looking rfl, .refl c⟩
  | startsWith pattern => exact ⟨[], .looking rfl, .refl c⟩
  | rest => exact ⟨[], .looking rfl, .refl c⟩
  | atEnd => exact ⟨[], .looking rfl, .refl c⟩
  | spanFrom start => exact ⟨[], .looking rfl, .refl c⟩
  | takeUntil pattern => exact ⟨_, .all rfl, c.reads_takeUntil pattern⟩
  | takeWhile p => exact ⟨_, .all rfl, c.reads_takeWhile p⟩
  | unquoted => exact ⟨_, .all rfl, c.reads_takeWhile isUnquotedChar⟩
  | body tag => exact ⟨_, .all rfl, c.reads_body tag⟩
  | tagName => exact reads_found rfl fun t d h => ⟨t, .all rfl, reads_name? h⟩
  | attributeName => exact reads_found rfl fun t d h => ⟨t, .all rfl, reads_name? h⟩
  | quoted =>
    refine reads_found rfl fun found d h => ?_
    obtain ⟨hquote, hreads⟩ := reads_quoted? h
    exact ⟨_, .quoted hquote, hreads⟩
  | comment => exact reads_found rfl fun content d h => ⟨_, .comment, reads_comment? h⟩
  | next =>
    refine reads_found rfl fun t d h => ?_
    obtain ⟨⟨e, after⟩, hnext, heq⟩ := Option.map_eq_some_iff.1 h
    cases heq
    exact ⟨[e], .all rfl, reads_next? hnext⟩
  | skipBlanks =>
    obtain ⟨t, hblank, hreads⟩ := c.reads_skipBlanks
    have hsize : c.skipBlanks.offset - c.offset = Text.size t := by
      rw [hreads.offset]
      omega
    refine ⟨t, ?_, hreads⟩
    rw [run, hsize]
    exact .blanks hblank
  | consume pattern =>
    rw [run, Cursor.consume]
    cases h : c.consume? pattern with
    | none => exact ⟨[], .nothing rfl, .refl c⟩
    | some d => exact ⟨pattern, .pattern, reads_consume? h⟩

/-- What holds of one action that leads from a cursor in a source to another. -/
structure Sound (source : Text) (c : Cursor) (action : Action) (finding : Finding) (d : Cursor) :
    Prop where
  placed : d.Placed source
  le : c.offset ≤ d.offset
  unmoved : finding.isNothing = true ∨ action.looks = true → d = c
  taken : ∃ t, Takes action finding t ∧ (⟨c.offset, d.offset⟩ : Span).Covers source t
  /-- The text that is given is a stretch of the source, behind the mark it is enclosed in. -/
  given : action.looks = false → ∀ t, finding.text? = some t →
    (⟨c.offset + action.margin, c.offset + action.margin + Text.size t⟩ : Span).Covers source t
  /-- Each turn in the content of a block ends at a place of the source. -/
  turns : ∀ tag, action = .body tag →
    Relation.ReflTransGen (fun a b => Body.Turn tag a b ∧ b.Placed source) c d

theorem run_sound {source : Text} {c : Cursor} (hc : c.In source) (action : Action) :
    Sound source c action (run c action).1 (run c action).2 := by
  obtain ⟨t, htakes, hreads⟩ := reads_run c action
  have hcovers := hc.covers hreads
  exact
    { placed := (hc.reads hreads).placed
      le := hreads.le
      unmoved := fun hnone => by
        rw [htakes.eq_nil hnone] at hreads
        exact hreads.eq_of_nil
      taken := ⟨t, htakes, hcovers⟩
      given := fun hlooks u hu => by
        obtain ⟨before, after, rfl, hmargin⟩ := htakes.exists_margins hlooks hu
        have hinner : (⟨Text.size before, Text.size before + Text.size u⟩ : Span).Covers
            (before ++ (u ++ after)) u := ⟨before, after, rfl, rfl, rfl⟩
        have hshift := hinner.shift hcovers
        rw [← hmargin]
        simpa [Span.shift, Nat.add_comm, Nat.add_left_comm] using hshift
      turns := fun tag haction => by
        subst haction
        exact Body.placed_turns (Body.turns_body c tag) hc }

/-! ### A run -/

/-- What holds of some actions one after another. -/
inductive SoundRun (source : Text) : Cursor → List Action → List (Finding × Cursor) → Prop
  | nil {c : Cursor} : SoundRun source c [] []
  | cons {c d : Cursor} {action : Action} {finding : Finding} {actions : List Action}
      {steps : List (Finding × Cursor)} (sound : Sound source c action finding d)
      (more : SoundRun source d actions steps) :
      SoundRun source c (action :: actions) ((finding, d) :: steps)

theorem soundRun_of_in {source : Text} {c : Cursor} (hc : c.In source) (actions : List Action) :
    SoundRun source c actions (runAll c actions) := by
  induction actions generalizing c with
  | nil => exact .nil
  | cons action actions ih =>
    obtain ⟨t, -, hreads⟩ := reads_run c action
    exact .cons (run_sound hc action) (ih (hc.reads hreads))

theorem SoundRun.pairwise_le {source : Text} {c : Cursor} {actions : List Action}
    {steps : List (Finding × Cursor)} (h : SoundRun source c actions steps) :
    ((c :: steps.map Prod.snd).map Cursor.offset).Pairwise (· ≤ ·) := by
  rw [← List.isChain_iff_pairwise]
  induction h with
  | nil => exact .singleton _
  | cons sound _ ih => exact .cons_cons sound.le ih

/-- Whatever is done with a cursor, it stays at a place of the source, never goes back, and has
passed over just what it gave. -/
theorem runAll_sound (source : Text) (actions : List Action) :
    SoundRun source (start source) actions (runAll (start source) actions) ∧
      ((start source :: (runAll (start source) actions).map Prod.snd).map Cursor.offset).Pairwise
        (· ≤ ·) := by
  have hrun := soundRun_of_in (in_start source) actions
  exact ⟨hrun, hrun.pairwise_le⟩

end Action

end Cursor

end Wxml
