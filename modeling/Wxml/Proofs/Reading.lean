import Wxml.Proofs.Text
import Wxml.Template.Reader

/-!
# What the readers make of a known text

Each reader of a cursor is described on a text that starts with what it looks for: `t ++ rest`,
where `rest` cannot go on with `t`.  Offsets are left open where only the text that was read
matters.

The main statements are on the parts of a tag: `Attribute.readDistinct_written` reads back
attributes that were written one after another (`Attribute.Written`), with either quote character
around their values, and `Event.readTag_written` the whole tag.  The other kinds of events have one
statement each, and `Event.scan_of_read` says how the events of a source begin.

`Event.read`, `Event.scan` and `readPassed` take the content of a text to be what the cursor passes,
and so need no source to cut it from.  In a source whose offsets have 32 bits it is the same
(`read_eq_readPassed`, where the places of texts are known).
-/

namespace Wxml

theorem eq_ok_of_toOption {ε α : Type} {x : Except ε α} {a : α} (h : x.toOption = some a) :
    x = .ok a := by
  cases x with
  | error _ => cases h
  | ok _ => cases h; rfl

namespace Cursor

theorem advance_append (k : Nat) (t rest : Text) :
    (⟨k, t ++ rest⟩ : Cursor).advance t.length = ⟨k + Text.size t, rest⟩ := by
  simp [advance]

theorem takeWhile_append {p : Char → Bool} {t rest : Text} (k : Nat) (h : ∀ c ∈ t, p c = true)
    (hrest : ∀ c, rest.head? = some c → p c = false) :
    (⟨k, t ++ rest⟩ : Cursor).takeWhile p = (t, ⟨k + Text.size t, rest⟩) := by
  simp only [takeWhile, Text.takeWhile_append_stop h hrest, advance_append]

theorem takeWhile_rest (c : Cursor) (p : Char → Bool) :
    (c.takeWhile p).2.rest = c.rest.dropWhile p := by
  have h : c.rest.takeWhile p ++ c.rest.dropWhile p = c.rest :=
    List.takeWhile_append_dropWhile
  calc (c.rest).drop (c.rest.takeWhile p).length
      = (c.rest.takeWhile p ++ c.rest.dropWhile p).drop (c.rest.takeWhile p).length := by rw [h]
    _ = c.rest.dropWhile p := List.drop_left

theorem skipBlanks_rest (c : Cursor) : c.skipBlanks.rest = c.rest.dropWhile isBlank :=
  c.takeWhile_rest isBlank

theorem skipBlanks_eq_self {c : Cursor} (h : ∀ d, c.rest.head? = some d → isBlank d = false) :
    c.skipBlanks = c := by
  have hnone : c.rest.takeWhile isBlank = [] := by
    cases hrest : c.rest with
    | nil => rfl
    | cons d rest => simp [h d (by simp [hrest])]
  simp [skipBlanks, takeWhile, hnone, advance]

theorem skipBlanks_skipBlanks (c : Cursor) : c.skipBlanks.skipBlanks = c.skipBlanks := by
  refine skipBlanks_eq_self fun d hd => ?_
  rw [skipBlanks_rest] at hd
  have := List.head?_dropWhile_not isBlank c.rest
  rw [hd] at this
  simpa using this

/-- A single blank is skipped. -/
theorem skipBlanks_space {rest : Text} (k : Nat)
    (h : ∀ c, rest.head? = some c → isBlank c = false) :
    (⟨k, ' ' :: rest⟩ : Cursor).skipBlanks = ⟨k + 1, rest⟩ := by
  have := takeWhile_append (p := isBlank) (t := [' ']) k (List.forall_mem_singleton.2 rfl) h
  exact congrArg Prod.snd this

theorem startsWith_iff {c : Cursor} {pattern : Text} :
    c.startsWith pattern = true ↔ pattern <+: c.rest := List.isPrefixOf_iff_prefix

theorem consume?_append (k : Nat) (pattern rest : Text) :
    (⟨k, pattern ++ rest⟩ : Cursor).consume? pattern = some ⟨k + Text.size pattern, rest⟩ := by
  rw [consume?, if_pos (startsWith_iff.2 (List.prefix_append _ _)), advance_append]

theorem consume?_eq_none {c : Cursor} {pattern : Text} (h : ¬ pattern <+: c.rest) :
    c.consume? pattern = none := by
  rw [consume?, if_neg (by rwa [startsWith_iff])]

/-- A tag is skipped up to its first `>`. -/
theorem skipTag_append {t : Text} (k : Nat) (rest : Text) (h : '>' ∉ t) :
    ∃ k', (⟨k, t ++ '>' :: rest⟩ : Cursor).skipTag = ⟨k', rest⟩ := by
  have hbreak : Text.breakOn ">" (t ++ (">" ++ rest)) = (t, ">" ++ rest) := by
    refine Text.breakOn_append_of_not_isPrefix (List.prefix_append _ _) (by simp) ?_
    intro u hu hsuffix hprefix
    cases u with
    | nil => exact hu rfl
    | cons c u =>
      obtain rfl : '>' = c := by simpa using hprefix
      exact h (hsuffix.subset (by simp))
  refine ⟨k + Text.size t + 1, ?_⟩
  have hcut : (⟨k, t ++ '>' :: rest⟩ : Cursor).takeUntil ">" =
      (t, ⟨k + Text.size t, ">" ++ rest⟩) := by
    rw [takeUntil, show t ++ '>' :: rest = t ++ (">" ++ rest) from rfl, hbreak, advance_append]
  rw [skipTag, hcut, consume, consume?_append]
  rfl

/-- A comment is read back. -/
theorem comment?_append {content : Text} (k : Nat) (rest : Text)
    (h : ¬ ("-->" : Text) <:+: content) :
    ∃ k', (⟨k, "<!--" ++ (content ++ ("-->" ++ rest))⟩ : Cursor).comment? =
      some (content, ⟨k', rest⟩) := by
  have hafter : Text.after? "<!--" ("<!--" ++ (content ++ ("-->" ++ rest))) =
      some (content ++ ("-->" ++ rest)) := Text.after?_eq_some_iff.2 rfl
  have hbreak : Text.breakOn "-->" (content ++ ("-->" ++ rest)) = (content, "-->" ++ rest) :=
    Text.breakOn_append_of_not_isPrefix (List.prefix_append _ _) (by simp)
      fun u hu hsuffix => Text.not_isPrefix_append_of_comment rest h hu hsuffix
  have hadvance := advance_append k ("<!--" ++ (content ++ "-->")) rest
  have hlength : (("<!--" : Text) ++ (content ++ "-->")).length = content.length + 7 := by
    simp
  rw [hlength, List.append_assoc, List.append_assoc] at hadvance
  refine ⟨k + Text.size ("<!--" ++ (content ++ "-->")), ?_⟩
  simp only [comment?, hafter, hbreak]
  exact congrArg (fun c => some (content, c)) hadvance

/-! ### Names and quoted values -/

/-- A character that starts an attribute name is none of those that stand between attributes. -/
theorem isAttributeHead_not {c : Char} (h : isAttributeHead c = true) :
    isBlank c = false ∧ c ≠ '=' ∧ c ≠ '>' ∧ c ≠ '/' := by
  simp only [isAttributeHead, Bool.or_eq_true, beq_iff_eq] at h
  obtain (((h | rfl) | rfl) | rfl) | rfl := h
  · refine ⟨isBlank_of_isAlpha h, ?_, ?_, ?_⟩
    all_goals
      rintro rfl
      revert h
      decide
  all_goals decide

/-- Whether a text is the name of an attribute, read in one piece. -/
def isAttributeName : Text → Bool
  | [] => false
  | c :: t => isAttributeHead c && t.all isAttributeChar

theorem attributeName?_append {key rest : Text} (k : Nat) (h : isAttributeName key = true)
    (hrest : ∀ c, rest.head? = some c → isAttributeChar c = false) :
    (⟨k, key ++ rest⟩ : Cursor).attributeName? = some (key, ⟨k + Text.size key, rest⟩) := by
  cases key with
  | nil => simp [isAttributeName] at h
  | cons c key =>
    simp only [isAttributeName, Bool.and_eq_true, List.all_eq_true] at h
    have htaken : (key ++ rest).takeWhile isAttributeChar = key :=
      Text.takeWhile_append_stop h.2 hrest
    simp only [attributeName?, name?, List.cons_append, h.1, ↓reduceIte, htaken]
    exact congrArg (fun c' => some (c :: key, c')) (advance_append k (c :: key) rest)

theorem quoted?_append {value : Text} {q : Char} (k : Nat) (rest : Text) (hq : isQuote q = true)
    (h : q ∉ value) :
    ∃ k', (⟨k, q :: (value ++ q :: rest)⟩ : Cursor).quoted? = some ((value, q), ⟨k', rest⟩) := by
  have htaken : (value ++ q :: rest).takeWhile (· != q) = value := by
    refine Text.takeWhile_append_stop ?_ ?_
    · intro c hc
      rw [bne_iff_ne]
      rintro rfl
      exact h hc
    · exact Text.forall_head?_cons (by simp)
  have hadvance := advance_append k (q :: (value ++ [q])) rest
  simp only [List.cons_append, List.append_assoc, List.nil_append, List.length_cons,
    List.length_append, List.length_nil] at hadvance
  refine ⟨k + Text.size (q :: (value ++ [q])), ?_⟩
  simp only [quoted?, hq, ↓reduceIte, htaken]
  rw [if_pos (by simp), hadvance]

end Cursor

/-! ### The attributes of a tag -/

namespace Attribute

/-- An attribute that stands nowhere. -/
def unplaced (a : Attribute) : Attribute := { a with span := .empty 0 }

/-- A text is some attributes written one after another, each after a space.  A value stands between
two quote characters of a kind that it does not hold. -/
inductive Written : List Attribute → Text → Prop
  | nil : Written [] []
  | flag {key : Text} {span : Span} {as : List Attribute} {t : Text} (rest : Written as t) :
      Written (⟨key, none, span⟩ :: as) (' ' :: (key ++ t))
  | valued {key value : Text} {span : Span} {q : Char} {as : List Attribute} {t : Text}
      (quote : Cursor.isQuote q = true) (clear : q ∉ value) (rest : Written as t) :
      Written (⟨key, some value, span⟩ :: as) (' ' :: (key ++ '=' :: q :: (value ++ q :: t)))

/-- A text that ends a tag. -/
def EndsTag (t : Text) : Prop := ∃ rest, t = '>' :: rest ∨ t = ' ' :: '/' :: '>' :: rest

/-- A text that can follow the name of an attribute without a value. -/
def FollowsName (t : Text) : Prop :=
  ∃ c rest, (t = c :: rest ∧ c = '>') ∨ (t = ' ' :: c :: rest ∧ isBlank c = false ∧ c ≠ '=')

theorem EndsTag.followsName {t : Text} (h : EndsTag t) : FollowsName t := by
  obtain ⟨rest, rfl | rfl⟩ := h
  · exact ⟨'>', rest, .inl ⟨rfl, rfl⟩⟩
  · exact ⟨'/', '>' :: rest, .inr ⟨rfl, by decide, by decide⟩⟩

/-- Attributes can follow a name. -/
theorem Written.followsName {as : List Attribute} {t rest : Text} (h : Written as t)
    (hkeys : ∀ a ∈ as, Cursor.isAttributeName a.key = true) (hend : EndsTag rest) :
    FollowsName (t ++ rest) := by
  have hname : ∀ (key u : Text), Cursor.isAttributeName key = true →
      FollowsName (' ' :: (key ++ u)) := by
    intro key u hkey
    cases key with
    | nil => simp [Cursor.isAttributeName] at hkey
    | cons c key =>
      simp only [Cursor.isAttributeName, Bool.and_eq_true] at hkey
      obtain ⟨hblank, hequals, -⟩ := Cursor.isAttributeHead_not hkey.1
      exact ⟨c, key ++ u, .inr ⟨rfl, hblank, hequals⟩⟩
  cases h with
  | nil => exact hend.followsName
  | flag _ =>
    rw [List.cons_append, List.append_assoc]
    exact hname _ _ (hkeys _ (List.mem_cons_self ..))
  | valued _ _ _ =>
    rw [List.cons_append, List.append_assoc]
    exact hname _ _ (hkeys _ (List.mem_cons_self ..))

/-- A name ends where a text follows it. -/
theorem FollowsName.stops {p : Char → Bool} {t : Text} (h : FollowsName t)
    (hgreater : p '>' = false) (hspace : p ' ' = false) : ∀ c, t.head? = some c → p c = false := by
  obtain ⟨d, rest, ⟨rfl, rfl⟩ | ⟨rfl, -, -⟩⟩ := h
  · exact Text.forall_head?_cons hgreater
  · exact Text.forall_head?_cons hspace

/-- An attribute without an equals sign is a flag. -/
theorem readValue_flag {t : Text} (k : Nat) (h : FollowsName t) :
    readValue ⟨k, t⟩ = .ok (none, (⟨k, t⟩ : Cursor).skipBlanks) := by
  have hnone : (⟨k, t⟩ : Cursor).skipBlanks.consume? "=" = none := by
    apply Cursor.consume?_eq_none
    rw [Cursor.skipBlanks_rest]
    obtain ⟨c, rest, ⟨rfl, rfl⟩ | ⟨rfl, hblank, hequals⟩⟩ := h
    · have : isBlank '>' = false := by decide
      simp [this]
    · have : isBlank ' ' = true := by decide
      simp [this, hblank, Ne.symm hequals]
  rw [readValue, hnone]

theorem readValue_valued {value t : Text} {q : Char} (k : Nat) (hq : Cursor.isQuote q = true)
    (h : q ∉ value) :
    ∃ k', readValue ⟨k, '=' :: q :: (value ++ q :: t)⟩ = .ok (some value, ⟨k', t⟩) := by
  have hblank : isBlank q = false := by
    simp only [Cursor.isQuote, Bool.or_eq_true, beq_iff_eq] at hq
    obtain rfl | rfl := hq <;> decide
  have hequals : (⟨k, '=' :: q :: (value ++ q :: t)⟩ : Cursor).skipBlanks.consume? "=" =
      some ⟨k + 1, q :: (value ++ q :: t)⟩ := by
    rw [Cursor.skipBlanks_eq_self]
    · exact Cursor.consume?_append k "=" _
    · exact Text.forall_head?_cons (by decide)
  have hstay : (⟨k + 1, q :: (value ++ q :: t)⟩ : Cursor).skipBlanks =
      ⟨k + 1, q :: (value ++ q :: t)⟩ :=
    Cursor.skipBlanks_eq_self (Text.forall_head?_cons hblank)
  obtain ⟨k', hquoted⟩ := Cursor.quoted?_append (k + 1) t hq h
  refine ⟨k', ?_⟩
  rw [readValue, hequals]
  simp [hstay, Cursor.peek?, hq, hquoted]

theorem readDistinct_eq (seen : List Text) (c : Cursor) :
    readDistinct seen c =
      if atTagEnd c.skipBlanks then .ok ([], c.skipBlanks)
      else
        match read? c.skipBlanks with
        | none => readDistinct seen (c.skipBlanks.advance 1)
        | some (.error u) => .error (.unterminated u)
        | some (.ok (a, after)) =>
          if seen.contains a.key then .error (.duplicate a.key a.span)
          else
            match readDistinct (a.key :: seen) after with
            | .ok (more, last) => .ok (a :: more, last)
            | .error f => .error f := by
  rw [readDistinct]
  by_cases hend : atTagEnd c.skipBlanks
  · simp [hend]
  · simp only [hend, Bool.false_eq_true, ↓reduceDIte, ↓reduceIte]
    split
    · rename_i hread
      rw [hread]
    · rename_i hread
      rw [hread]
    · rename_i a after hread
      cases hmore : readDistinct (a.key :: seen) after <;> simp only [hread, hmore]

theorem readDistinct_skipBlanks (seen : List Text) (c : Cursor) :
    readDistinct seen c.skipBlanks = readDistinct seen c := by
  rw [readDistinct_eq seen c.skipBlanks, readDistinct_eq seen c, Cursor.skipBlanks_skipBlanks]

/-- One more attribute is read before others. -/
theorem readDistinct_cons {seen : List Text} {c after last : Cursor} {a : Attribute}
    {more : List Attribute} (hend : ¬ atTagEnd c.skipBlanks = true)
    (hread : read? c.skipBlanks = some (.ok (a, after))) (hnew : a.key ∉ seen)
    (hmore : readDistinct (a.key :: seen) after = .ok (more, last)) :
    readDistinct seen c = .ok (a :: more, last) := by
  rw [readDistinct_eq, if_neg hend, hread]
  simp [hnew, hmore]

/-- The text before a written attribute. -/
theorem atTagEnd_key {key t : Text} (k : Nat) (h : Cursor.isAttributeName key = true) :
    (⟨k, ' ' :: (key ++ t)⟩ : Cursor).skipBlanks = ⟨k + 1, key ++ t⟩ ∧
      ¬ atTagEnd ⟨k + 1, key ++ t⟩ = true := by
  cases key with
  | nil => simp [Cursor.isAttributeName] at h
  | cons c key =>
    simp only [Cursor.isAttributeName, Bool.and_eq_true] at h
    obtain ⟨hblank, -, hgreater, hslash⟩ := Cursor.isAttributeHead_not h.1
    constructor
    · exact Cursor.skipBlanks_space k (Text.forall_head?_cons hblank)
    · simp [atTagEnd, Cursor.atEnd, Cursor.startsWith, List.isPrefixOf, Ne.symm hgreater,
        Ne.symm hslash]

/-- A flag is read back. -/
theorem read?_flag {key t : Text} (k : Nat) (hkey : Cursor.isAttributeName key = true)
    (h : FollowsName t) :
    ∃ span k', read? ⟨k, key ++ t⟩ =
      some (.ok (⟨key, none, span⟩, (⟨k', t⟩ : Cursor).skipBlanks)) := by
  refine ⟨⟨k, (⟨k + Text.size key, t⟩ : Cursor).skipBlanks.offset⟩, k + Text.size key, ?_⟩
  rw [read?, Cursor.attributeName?_append k hkey (h.stops (by decide) (by decide))]
  simp only [readValue_flag _ h]
  rfl

/-- An attribute with a value is read back. -/
theorem read?_valued {key value t : Text} {q : Char} (k : Nat)
    (hkey : Cursor.isAttributeName key = true) (hq : Cursor.isQuote q = true) (h : q ∉ value) :
    ∃ span k', read? ⟨k, key ++ '=' :: q :: (value ++ q :: t)⟩ =
      some (.ok (⟨key, some value, span⟩, ⟨k', t⟩)) := by
  have hstop : ∀ c, ('=' :: q :: (value ++ q :: t)).head? = some c →
      Cursor.isAttributeChar c = false := Text.forall_head?_cons (by decide)
  obtain ⟨k', hvalue⟩ := readValue_valued (k + Text.size key) hq h (t := t)
  refine ⟨⟨k, k'⟩, k', ?_⟩
  rw [read?, Cursor.attributeName?_append k hkey hstop]
  simp only [hvalue]
  rfl

theorem not_mem_cons_of_nodup {key : Text} {as : List Attribute} {seen : List Text}
    (hkey : key ∉ as.map Attribute.key) (hseen : ∀ a ∈ as, a.key ∉ seen) :
    ∀ a ∈ as, a.key ∉ key :: seen := by
  intro a ha
  rw [List.mem_cons, not_or]
  exact ⟨fun same => hkey (List.mem_map.2 ⟨a, ha, same⟩), hseen a ha⟩

/-- Attributes with distinct names are read back as they were written. -/
theorem readDistinct_written {as : List Attribute} {t : Text} (h : Written as t) :
    (∀ a ∈ as, Cursor.isAttributeName a.key = true) → (as.map Attribute.key).Nodup →
    ∀ (seen : List Text), (∀ a ∈ as, a.key ∉ seen) → ∀ (k : Nat) {rest : Text}, EndsTag rest →
      ∃ as' k', readDistinct seen ⟨k, t ++ rest⟩ = .ok (as', ⟨k', rest.dropWhile isBlank⟩) ∧
        as'.map unplaced = as.map unplaced := by
  induction h with
  | nil =>
    intro _ _ seen _ k rest hend
    have hskip := Cursor.skipBlanks_rest ⟨k, rest⟩
    have hat : atTagEnd (⟨k, rest⟩ : Cursor).skipBlanks = true := by
      simp only [atTagEnd, Cursor.atEnd, Cursor.startsWith, hskip]
      obtain ⟨more, rfl | rfl⟩ := hend
      · have : isBlank '>' = false := by decide
        simp [this]
      · have hspace : isBlank ' ' = true := by decide
        have hslash : isBlank '/' = false := by decide
        simp [hspace, hslash, List.isPrefixOf]
    refine ⟨[], (⟨k, rest⟩ : Cursor).skipBlanks.offset, ?_, rfl⟩
    rw [List.nil_append, readDistinct_eq, if_pos hat, ← hskip]
  | @flag key span as t written ih =>
    intro hkeys hnodup seen hseen k rest hend
    rw [List.map_cons, List.nodup_cons] at hnodup
    rw [List.forall_mem_cons] at hkeys hseen
    have hfollows := written.followsName hkeys.2 hend
    obtain ⟨hskip, hat⟩ := atTagEnd_key (t := t ++ rest) k hkeys.1
    obtain ⟨span', k₁, hread⟩ := read?_flag (k + 1) hkeys.1 hfollows
    obtain ⟨as', k₂, hmore, halike⟩ := ih hkeys.2 hnodup.2 (key :: seen)
      (not_mem_cons_of_nodup hnodup.1 hseen.2) k₁ hend
    refine ⟨⟨key, none, span'⟩ :: as', k₂, ?_, by simp [halike, unplaced]⟩
    rw [List.cons_append, List.append_assoc]
    refine readDistinct_cons (by rwa [hskip]) (by rw [hskip]; exact hread) hseen.1 ?_
    -- The search for an equals sign has skipped the blank before the next attribute.
    rw [readDistinct_skipBlanks]
    exact hmore
  | @valued key value span q as t quote clear written ih =>
    intro hkeys hnodup seen hseen k rest hend
    rw [List.map_cons, List.nodup_cons] at hnodup
    rw [List.forall_mem_cons] at hkeys hseen
    obtain ⟨hskip, hat⟩ := atTagEnd_key (t := '=' :: q :: (value ++ q :: (t ++ rest))) k hkeys.1
    obtain ⟨span', k₁, hread⟩ := read?_valued (t := t ++ rest) (k + 1) hkeys.1 quote clear
    obtain ⟨as', k₂, hmore, halike⟩ := ih hkeys.2 hnodup.2 (key :: seen)
      (not_mem_cons_of_nodup hnodup.1 hseen.2) k₁ hend
    refine ⟨⟨key, some value, span'⟩ :: as', k₂, ?_, by simp [halike, unplaced]⟩
    have htext : ' ' :: (key ++ '=' :: q :: (value ++ q :: t)) ++ rest =
        ' ' :: (key ++ '=' :: q :: (value ++ q :: (t ++ rest))) := by simp
    rw [htext]
    exact readDistinct_cons (by rwa [hskip]) (by rw [hskip]; exact hread) hseen.1 hmore

end Attribute

/-! ### Tags, comments, interpolations and text -/

namespace Template

/-- Whether a text is the tag of an element, read in one piece. -/
def isTagName : Text → Bool
  | [] => false
  | c :: t => c.isAlpha && t.all Cursor.isTagChar

theorem isTagChar_of_isTagName {tag : Text} (h : isTagName tag = true) :
    ∀ c ∈ tag, Cursor.isTagChar c = true := by
  cases tag with
  | nil => simp
  | cons c tag =>
    simp only [isTagName, Bool.and_eq_true, List.all_eq_true] at h
    intro d hd
    cases List.mem_cons.1 hd with
    | inl same => simp [same, Cursor.isTagChar, Char.isAlphanum, h.1]
    | inr mem => exact h.2 d mem

/-- What closes a tag. -/
def tagEnd (selfClosing : Bool) : Text := if selfClosing then " />" else ">"

theorem endsTag_tagEnd (selfClosing : Bool) (rest : Text) :
    Attribute.EndsTag (tagEnd selfClosing ++ rest) := by
  cases selfClosing with
  | false => exact ⟨rest, .inl rfl⟩
  | true => exact ⟨rest, .inr rfl⟩

namespace Event

/-- A tag is read back with its attributes. -/
theorem readTag_written {tag t : Text} {as : List Attribute} (selfClosing : Bool) (rest : Text)
    (k : Nat) (htag : isTagName tag = true) (hkeys : ∀ a ∈ as, Cursor.isAttributeName a.key = true)
    (hdistinct : (as.map Attribute.key).Nodup) (h : Attribute.Written as t) :
    ∃ head k', readTag ⟨k, '<' :: (tag ++ (t ++ (tagEnd selfClosing ++ rest)))⟩ =
        .ok (head, ⟨k', rest⟩) ∧ head.tag = tag ∧ head.selfClosing = selfClosing ∧
      head.attributes.map Attribute.unplaced = as.map Attribute.unplaced := by
  have hend := endsTag_tagEnd selfClosing rest
  have hinside : (⟨k, '<' :: (tag ++ (t ++ (tagEnd selfClosing ++ rest)))⟩ : Cursor).advance 1 =
      ⟨k + 1, tag ++ (t ++ (tagEnd selfClosing ++ rest))⟩ := Cursor.advance_append k ['<'] _
  have hname := Cursor.takeWhile_append (p := Cursor.isTagChar) (k + 1)
    (isTagChar_of_isTagName htag) ((h.followsName hkeys hend).stops (by decide) (by decide))
  obtain ⟨as', k₁, hattributes, halike⟩ := Attribute.readDistinct_written h hkeys hdistinct []
    (by simp) (k + 1 + Text.size tag) hend
  unfold readTag
  simp only [hinside, hname, hattributes]
  cases selfClosing with
  | false =>
    have hdrop : (tagEnd false ++ rest).dropWhile isBlank = ">" ++ rest := rfl
    have hnone : (⟨k₁, ">" ++ rest⟩ : Cursor).consume? "/>" = none :=
      Cursor.consume?_eq_none (by simp)
    rw [hdrop, hnone]
    simp only [Cursor.consume?_append]
    exact ⟨_, _, rfl, rfl, rfl, halike⟩
  | true =>
    have hdrop : (tagEnd true ++ rest).dropWhile isBlank = "/>" ++ rest := rfl
    rw [hdrop]
    simp only [Cursor.consume?_append]
    exact ⟨_, _, rfl, rfl, rfl, halike⟩

/-- A closing tag is read back. -/
theorem readClosing_append {tag : Text} (k : Nat) (rest : Text) (htag : isTagName tag = true) :
    ∃ span stop k', readClosing ⟨k, "</" ++ (tag ++ '>' :: rest)⟩ =
      (.closed tag span stop, ⟨k', rest⟩) := by
  have hname : (tag ++ '>' :: rest).takeWhile Cursor.isTagChar = tag :=
    Text.takeWhile_append_stop (isTagChar_of_isTagName htag) (Text.forall_head?_cons (by decide))
  have hclear : '>' ∉ "</" ++ tag := by
    intro hmem
    cases List.mem_append.1 hmem with
    | inl hmem => simp at hmem
    | inr hmem => exact absurd (isTagChar_of_isTagName htag _ hmem) (by decide)
  obtain ⟨k', hskip⟩ := Cursor.skipTag_append k rest hclear
  rw [List.append_assoc] at hskip
  refine ⟨⟨k, k + 2 + Text.size tag⟩, k', k', ?_⟩
  simp only [readClosing, hskip]
  rw [show (("</" : Text) ++ (tag ++ '>' :: rest)).drop 2 = tag ++ '>' :: rest from rfl, hname]

/-- An interpolation is read back. -/
theorem readInterpolation_append {raw : Text} (k : Nat) (rest : Text)
    (h : ¬ ("\x7d\x7d" : Text) <:+: raw) (hlast : raw.getLast? ≠ some '\x7d') :
    ∃ span k', readInterpolation ⟨k, "\x7b\x7b" ++ (raw ++ ("\x7d\x7d" ++ rest))⟩ =
      .ok (.complete (.expression raw span), ⟨k', rest⟩) := by
  have hinside := Cursor.advance_append k "\x7b\x7b" (raw ++ ("\x7d\x7d" ++ rest))
  have hbreak : Text.breakOn "\x7d\x7d" (raw ++ ("\x7d\x7d" ++ rest)) = (raw, "\x7d\x7d" ++ rest) :=
    Text.breakOn_append_of_not_isPrefix (List.prefix_append _ _) (by simp)
      fun u hu hsuffix => Text.not_isPrefix_append_of_braces rest h hlast hu hsuffix
  refine ⟨⟨k, k + 2 + Text.size raw + 2⟩, k + 2 + Text.size raw + 2, ?_⟩
  unfold readInterpolation
  rw [show (2 : Nat) = ("\x7b\x7b" : Text).length from rfl, hinside]
  simp only [Cursor.takeUntil, hbreak, Cursor.advance_append, Cursor.consume?_append]
  rfl

end Event

/-- Text ends before markup. -/
theorem plainText_append {t rest : Text} (hrest : rest = [] ∨ startsMarkup rest = true)
    (h : ∀ u, u ≠ [] → u <:+ t → startsMarkup (u ++ rest) = false) :
    plainText (t ++ rest) = t := by
  induction t with
  | nil =>
    cases rest with
    | nil => rfl
    | cons c rest =>
      have hmarkup : startsMarkup (c :: rest) = true := by simpa using hrest
      rw [List.nil_append, plainText, if_pos hmarkup]
  | cons c t ih =>
    have hfirst := h (c :: t) (by simp) (List.suffix_refl _)
    rw [List.cons_append] at hfirst
    rw [List.cons_append, plainText, if_neg (by simp [hfirst]),
      ih fun u hu hsuffix => h u hu (hsuffix.trans (List.suffix_cons c t))]

namespace Event

/-! ### Text as it is passed -/

/-- The content of a text is what the cursor passes. -/
def passed (_ : Span) (t : Text) : Option Text := some t

/-- The text that starts here, as it is passed. -/
def readText (c : Cursor) : Option Event × Cursor :=
  let after := c.advance (1 + (plainText (c.rest.drop 1)).length)
  ((textNode? (c.rest.take 1 ++ plainText (c.rest.drop 1)) (after.spanFrom c.offset)).map .complete,
    after)

/-- The event ahead, with text as it is passed. -/
def read (c : Cursor) : Except Fault (Option Event × Cursor) := readBy passed c

/-- The events from the cursor on, with text as it is passed. -/
def scan (c : Cursor) : List Event := scanBy passed c

theorem read_eq (c : Cursor) :
    read c =
      if c.startsWith "</" then .ok (some (readClosing c).1, (readClosing c).2)
      else if c.startsWith "<!--" then
        match c.comment? with
        | some (content, after) =>
          .ok (some (.complete (.comment content (after.spanFrom c.offset))), after)
        | none => .error (.unterminatedComment ⟨c.offset, c.offset + 4⟩)
      else if startsElement c.rest then
        match readElement c with
        | .ok (event, after) => .ok (some event, after)
        | .error fault => .error fault
      else if c.startsWith "\x7b\x7b" then
        match readInterpolation c with
        | .ok (event, after) => .ok (some event, after)
        | .error fault => .error fault
      else .ok (readText c) := rfl

theorem length_read_lt {c c' : Cursor} {event : Option Event} (hc : c.rest ≠ [])
    (h : read c = .ok (event, c')) : c'.rest.length < c.rest.length := length_readBy_lt hc h

section

variable {cut : Span → Text → Option Text} {c after : Cursor} {event : Option Event} {fault : Fault}

theorem scanBy_of_end (h : c.rest = []) : scanBy cut c = [] := by rw [scanBy, dif_pos h]

theorem scanBy_of_error (hc : c.rest ≠ []) (h : readBy cut c = .error fault) :
    scanBy cut c = [.failed fault] := by
  rw [scanBy, dif_neg hc]
  split
  · rename_i hread
    rw [h] at hread
    cases hread
    rfl
  · rename_i hread
    rw [h] at hread
    cases hread

theorem scanBy_of_read (hc : c.rest ≠ []) (h : readBy cut c = .ok (event, after)) :
    scanBy cut c = event.toList ++ scanBy cut after := by
  rw [scanBy, dif_neg hc]
  split
  · rename_i hread
    rw [h] at hread
    cases hread
  · rename_i hread
    rw [h] at hread
    cases hread
    rfl

theorem scan_of_end (h : c.rest = []) : scan c = [] := scanBy_of_end h

theorem scan_of_error (hc : c.rest ≠ []) (h : read c = .error fault) : scan c = [.failed fault] :=
  scanBy_of_error hc h

/-- The events after one that was read. -/
theorem scan_of_read (hc : c.rest ≠ []) (h : read c = .ok (event, after)) :
    scan c = event.toList ++ scan after := scanBy_of_read hc h

end

/-- What holds at the end and at a fault, and before an event if it holds after it, holds of every
cursor. -/
theorem scan_induction {motive : Cursor → Prop} (stop : ∀ c : Cursor, c.rest = [] → motive c)
    (failed : ∀ (c : Cursor) (fault : Fault), c.rest ≠ [] → read c = .error fault → motive c)
    (next : ∀ (c : Cursor) (event : Option Event) (after : Cursor), c.rest ≠ [] →
      read c = .ok (event, after) → motive after → motive c) (c : Cursor) : motive c := by
  by_cases hend : c.rest = []
  · exact stop c hend
  · cases hread : read c with
    | error fault => exact failed c fault hend hread
    | ok found =>
      have hless := length_read_lt hend hread
      exact next c found.1 found.2 hend hread (scan_induction stop failed next found.2)
termination_by c.rest.length

/-- Text is read back up to the next markup. -/
theorem readText_append {t rest : Text} (k : Nat) (hne : t ≠ [])
    (hrest : rest = [] ∨ startsMarkup rest = true)
    (h : ∀ u, u ≠ [] → u <:+ t → startsMarkup (u ++ rest) = false) :
    ∃ span, readText ⟨k, t ++ rest⟩ =
      ((textNode? t span).map .complete, ⟨k + Text.size t, rest⟩) := by
  cases t with
  | nil => exact absurd rfl hne
  | cons c t =>
    have hplain : plainText (t ++ rest) = t := plainText_append hrest
      fun u hu hsuffix => h u hu (hsuffix.trans (List.suffix_cons c t))
    have hadvance := Cursor.advance_append k (c :: t) rest
    rw [List.length_cons, Nat.add_comm] at hadvance
    refine ⟨⟨k, k + Text.size (c :: t)⟩, ?_⟩
    simp only [readText, List.cons_append, List.drop_succ_cons, List.drop_zero, hplain]
    rw [← List.cons_append, hadvance]
    rfl

/-! ### Which reader is chosen -/

theorem startsElement_iff {t : Text} :
    startsElement t = true ↔ ∃ c rest, t = '<' :: c :: rest ∧ c.isAlpha = true := by
  constructor
  · intro h
    unfold startsElement at h
    split at h
    · rename_i c rest
      exact ⟨c, rest, rfl, h⟩
    · simp at h
  · rintro ⟨c, rest, rfl, hc⟩
    exact hc

theorem read_of_closing {c : Cursor} (h : ("</" : Text) <+: c.rest) :
    read c = .ok (some (readClosing c).1, (readClosing c).2) := by
  rw [read_eq, if_pos (Cursor.startsWith_iff.2 h)]

theorem read_of_comment {c after : Cursor} {content : Text} (h : ("<!--" : Text) <+: c.rest)
    (hread : c.comment? = some (content, after)) :
    read c = .ok (some (.complete (.comment content (after.spanFrom c.offset))), after) := by
  have hclosing : ¬ ("</" : Text) <+: c.rest := by
    obtain ⟨t, ht⟩ := h
    simp [← ht]
  rw [read_eq, if_neg (by rwa [Cursor.startsWith_iff]), if_pos (Cursor.startsWith_iff.2 h), hread]

theorem read_of_element {c after : Cursor} {event : Event} (h : startsElement c.rest = true)
    (hread : readElement c = .ok (event, after)) : read c = .ok (some event, after) := by
  obtain ⟨d, t, ht, hd⟩ := startsElement_iff.1 h
  have hclosing : ¬ ("</" : Text) <+: c.rest := by
    rw [ht]
    rintro hprefix
    obtain rfl : '/' = d := by simpa using hprefix
    exact absurd hd (by decide)
  have hcomment : ¬ ("<!--" : Text) <+: c.rest := by
    rw [ht]
    rintro hprefix
    obtain rfl : '!' = d := by
      simp only [String.reduceToList, List.cons_prefix_cons] at hprefix
      exact hprefix.2.1
    exact absurd hd (by decide)
  rw [read_eq, if_neg (by rwa [Cursor.startsWith_iff]), if_neg (by rwa [Cursor.startsWith_iff]),
    if_pos h, hread]

theorem read_of_interpolation {c after : Cursor} {event : Event}
    (h : ("\x7b\x7b" : Text) <+: c.rest) (hread : readInterpolation c = .ok (event, after)) :
    read c = .ok (some event, after) := by
  obtain ⟨t, ht⟩ := h
  have hclosing : ¬ ("</" : Text) <+: c.rest := by simp [← ht]
  have hcomment : ¬ ("<!--" : Text) <+: c.rest := by simp [← ht]
  have helement : ¬ startsElement c.rest = true := by simp [← ht, startsElement]
  rw [read_eq, if_neg (by rwa [Cursor.startsWith_iff]), if_neg (by rwa [Cursor.startsWith_iff]),
    if_neg helement, if_pos (Cursor.startsWith_iff.2 ⟨t, ht⟩), hread]

theorem readBy_of_text (cut : Span → Text → Option Text) {c : Cursor}
    (h : startsMarkup c.rest = false) : readBy cut c = readTextBy cut c := by
  simp only [startsMarkup, Bool.or_eq_false_iff] at h
  obtain ⟨⟨⟨hbraces, hclosing⟩, hcomment⟩, helement⟩ := h
  simp only [readBy, Cursor.startsWith, hclosing, hcomment, helement, hbraces, Bool.false_eq_true,
    ↓reduceIte]

theorem read_of_text {c : Cursor} (h : startsMarkup c.rest = false) : read c = .ok (readText c) :=
  readBy_of_text passed h

/-- Markup is read the same however the contents of texts are cut. -/
theorem readBy_of_markup (cut : Span → Text → Option Text) {c : Cursor}
    (h : startsMarkup c.rest = true) : readBy cut c = read c := by
  rw [readBy, read, readBy]
  by_cases hclosing : c.startsWith "</" = true
  · simp only [hclosing, ↓reduceIte]
  by_cases hcomment : c.startsWith "<!--" = true
  · simp only [hclosing, hcomment, ↓reduceIte]
  by_cases helement : startsElement c.rest = true
  · simp only [hclosing, hcomment, helement, ↓reduceIte]
  by_cases hbraces : c.startsWith "\x7b\x7b" = true
  · simp only [hclosing, hcomment, helement, hbraces, ↓reduceIte]
  · simp only [Cursor.startsWith] at hclosing hcomment hbraces
    simp [startsMarkup, hclosing, hcomment, helement, hbraces, -String.reduceToList] at h

theorem scan_of_read_some {c after : Cursor} {event : Event}
    (h : read c = .ok (some event, after)) : scan c = event :: scan after := by
  refine scan_of_read (fun hnil => ?_) h
  have hnone : read c = .ok (none, c.advance 1) := by
    rw [read_of_text (by rw [hnil]; rfl), readText, hnil]
    rfl
  rw [hnone] at h
  simp at h

end Event

/-- The root element of a source, with text as it is passed. -/
def readPassed (source : Text) : Except Fault Node :=
  match build (Event.scan (.start source)) [] [] with
  | .error fault => .error fault
  | .ok nodes => root (Text.size source) none nodes

end Template

end Wxml
