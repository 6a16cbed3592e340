import Wxml.Proofs.ComponentPrinting

/-!
# The attributes of a tag

There are two readers for the attributes of a tag, one for each kind of source.  `Attribute.Listed`
says what both are to find, without either of them: characters that start no name are passed over
one by one, a name is as long as it can be and so is what follows it, and the list ends with the tag
or at a value that is never closed.

* `Attribute.exists_listed` says that every text lists something;
* `Attribute.readAll_of_listed` and `Attribute.readDistinct_of_listed` say what each reader makes of
  a list;
* `Attribute.readers_agree` compares the two.
-/

namespace Wxml

/-- The text does not start with a character of this kind. -/
def Text.Stops (p : Char → Bool) (t : Text) : Prop := ∀ c, t.head? = some c → p c = false

namespace Attribute

open Cursor (isQuote isAttributeHead isAttributeChar isAttributeName isUnquotedChar)

/-! ### What a tag lists -/

/-- The tag ends here, or the source. -/
def TagEnds (t : Text) : Prop := t = [] ∨ (">" : Text) <+: t ∨ ("/>" : Text) <+: t

/-- An equals sign with the blanks around it. -/
def IsEquals (t : Text) : Prop :=
  ∃ blanks more, Text.allBlank blanks = true ∧ Text.allBlank more = true ∧
    t = blanks ++ '=' :: more

/-- How a value is spelled after a name and before `rest`, nothing of which belongs to it. -/
inductive SpelledBefore (rest : Text) : Option Text → Text → Prop
  | flag {blanks : Text} (blank : Text.allBlank blanks = true) (ends : Text.Stops isBlank rest)
      (bare : Text.Stops (· == '=') rest) : SpelledBefore rest none blanks
  | quoted {equals value : Text} {q : Char} (given : IsEquals equals) (quote : isQuote q = true)
      (clear : q ∉ value) : SpelledBefore rest (some value) (equals ++ (q :: (value ++ [q])))
  | unquoted {equals value : Text} (given : IsEquals equals)
      (starts : Text.Stops (fun c => isBlank c || isQuote c) (value ++ rest))
      (clear : ∀ c ∈ value, isUnquotedChar c = true) (ends : Text.Stops isUnquotedChar rest) :
      SpelledBefore rest (some value) (equals ++ value)

/-- The attributes that a text lists, and how the list ends: at the end of the tag, or at a value
whose quote is never closed. -/
inductive Listed : Cursor → List Attribute → Except Unterminated Cursor → Prop
  | done {k : Nat} {t : Text} (ends : TagEnds t) : Listed ⟨k, t⟩ [] (.ok ⟨k, t⟩)
  | skip {k : Nat} {c : Char} {t : Text} {as : List Attribute} {e : Except Unterminated Cursor}
      (goes : ¬ TagEnds (c :: t)) (nameless : isAttributeHead c = false)
      (more : Listed ⟨k + c.utf8Size, t⟩ as e) : Listed ⟨k, c :: t⟩ as e
  | cons {k : Nat} {key spelling rest : Text} {value : Option Text} {as : List Attribute}
      {e : Except Unterminated Cursor} (name : isAttributeName key = true)
      (ends : Text.Stops isAttributeChar (spelling ++ rest))
      (spelled : SpelledBefore rest value spelling)
      (more : Listed ⟨k + Text.size (key ++ spelling), rest⟩ as e) :
      Listed ⟨k, key ++ (spelling ++ rest)⟩
        (⟨key, value, ⟨k, k + Text.size (key ++ spelling)⟩⟩ :: as) e
  | unterminated {k : Nat} {key equals tail : Text} {q : Char} (name : isAttributeName key = true)
      (ends : Text.Stops isAttributeChar (equals ++ q :: tail)) (given : IsEquals equals)
      (quote : isQuote q = true) (clear : q ∉ tail) :
      Listed ⟨k, key ++ (equals ++ q :: tail)⟩ []
        (.error ⟨key, ⟨k, k + Text.size (key ++ equals)⟩⟩)

/-! ### Values -/

theorem stops_takeWhile (c : Cursor) (p : Char → Bool) : Text.Stops p (c.takeWhile p).2.rest := by
  intro d hd
  rw [Cursor.takeWhile_rest] at hd
  have hnot := List.head?_dropWhile_not p c.rest
  rw [hd] at hnot
  simpa using hnot

theorem not_mem_of_quoted? {c d : Cursor} {value : Text} {q : Char}
    (h : c.quoted? = some ((value, q), d)) : q ∉ value := by
  unfold Cursor.quoted? at h
  split at h
  · cases h
  · split at h
    · simp only at h
      split at h
      · cases h
        intro hmem
        have hne := List.all_eq_true.1 List.all_takeWhile _ hmem
        simp at hne
      · cases h
    · cases h

/-- A quote that is not read is never closed. -/
theorem not_mem_of_quoted?_eq_none {c : Cursor} {q : Char} {tail : Text}
    (hrest : c.rest = q :: tail) (hquote : isQuote q = true) (h : c.quoted? = none) : q ∉ tail := by
  intro hmem
  obtain ⟨value, rest, htail, hclear⟩ := List.eq_append_cons_of_mem hmem
  obtain ⟨k', hread⟩ := Cursor.quoted?_append c.offset rest hquote hclear
  obtain ⟨k, t⟩ := c
  rw [show t = q :: tail from hrest, htail, hread] at h
  cases h

theorem stops_isBlank_quote {q : Char} (h : isQuote q = true) (t : Text) :
    Text.Stops isBlank (q :: t) := by
  simp only [isQuote, Bool.or_eq_true, beq_iff_eq] at h
  obtain rfl | rfl := h <;> exact Text.forall_head?_cons (by decide)

section Equals

variable {equals t : Text} (h : IsEquals equals) (k : Nat)

include h

/-- After an equals sign the value is read from where the blanks end. -/
theorem consume?_equals (ht : Text.Stops isBlank t) :
    ∃ d, (⟨k, equals ++ t⟩ : Cursor).skipBlanks.consume? "=" = some d ∧
      d.skipBlanks = ⟨k + Text.size equals, t⟩ := by
  obtain ⟨blanks, more, hblanks, hmore, rfl⟩ := h
  have hskip : (⟨k, blanks ++ '=' :: more ++ t⟩ : Cursor).skipBlanks =
      ⟨k + Text.size blanks, "=" ++ (more ++ t)⟩ := by
    rw [List.append_assoc]
    exact Cursor.skipBlanks_append k hblanks (Text.forall_head?_cons (by decide))
  refine ⟨⟨k + Text.size blanks + 1, more ++ t⟩, by rw [hskip, Cursor.consume?_append]; rfl, ?_⟩
  rw [Cursor.skipBlanks_append _ hmore ht]
  simp only [Text.size_append, Text.size_cons, Cursor.mk.injEq, and_true]
  show _ = k + (Text.size blanks + (1 + Text.size more))
  omega

theorem readValue_quoted {value : Text} {q : Char} (hquote : isQuote q = true) (hclear : q ∉ value)
    (rest : Text) :
    readValue ⟨k, equals ++ (q :: (value ++ q :: rest))⟩ =
      .ok (some value, ⟨k + Text.size (equals ++ (q :: (value ++ [q]))), rest⟩) := by
  obtain ⟨d, hequals, hskip⟩ := consume?_equals h k (stops_isBlank_quote hquote _)
  obtain ⟨k', hread⟩ := Cursor.quoted?_append (k + Text.size equals) rest hquote hclear
  have hoffset : k' = k + Text.size equals + Text.size (q :: (value ++ [q])) :=
    (Cursor.reads_quoted? hread).2.offset
  rw [readValue, hequals]
  simp [hskip, Cursor.peek?, hquote, hread, hoffset, Nat.add_assoc]

theorem readValue_open {tail : Text} {q : Char} (hquote : isQuote q = true) (hclear : q ∉ tail) :
    readValue ⟨k, equals ++ q :: tail⟩ = .error ⟨k + Text.size equals, q :: tail⟩ := by
  obtain ⟨d, hequals, hskip⟩ := consume?_equals h k (stops_isBlank_quote hquote tail)
  have htaken : tail.takeWhile (· != q) = tail := by
    have hall : ∀ c ∈ tail, (c != q) = true :=
      fun c hc => bne_iff_ne.2 fun hcq => hclear (hcq ▸ hc)
    simpa using @Text.takeWhile_append_stop _ _ [] hall (by simp)
  rw [readValue, hequals]
  simp [hskip, Cursor.peek?, hquote, Cursor.quoted?, htaken]

theorem readValue_unquoted {value rest : Text}
    (hstarts : Text.Stops (fun c => isBlank c || isQuote c) (value ++ rest))
    (hclear : ∀ c ∈ value, isUnquotedChar c = true) (hends : Text.Stops isUnquotedChar rest) :
    readValue ⟨k, equals ++ (value ++ rest)⟩ =
      .ok (some value, ⟨k + Text.size (equals ++ value), rest⟩) := by
  have hboth : ∀ c, (value ++ rest).head? = some c → isBlank c = false ∧ isQuote c = false :=
    fun c hc => Bool.or_eq_false_iff.1 (hstarts c hc)
  obtain ⟨d, hequals, hskip⟩ := consume?_equals h k fun c hc => (hboth c hc).1
  have hquote : ((value ++ rest).head?.map isQuote).getD false = false := by
    cases hhead : (value ++ rest).head? with
    | none => rfl
    | some c => exact (hboth c hhead).2
  rw [readValue, hequals]
  simp only [hskip, Cursor.peek?, hquote, Bool.false_eq_true, ↓reduceIte, Cursor.unquoted,
    Cursor.takeWhile_append _ hclear hends, Text.size_append, Nat.add_assoc]

end Equals

theorem readValue_of_spelledBefore {rest spelling : Text} {value : Option Text}
    (h : SpelledBefore rest value spelling) (k : Nat) :
    readValue ⟨k, spelling ++ rest⟩ = .ok (value, ⟨k + Text.size spelling, rest⟩) := by
  cases h with
  | flag blank ends bare =>
    have hnone : (⟨k + Text.size spelling, rest⟩ : Cursor).consume? "=" = none := by
      apply Cursor.consume?_eq_none
      rintro ⟨after, rfl⟩
      exact absurd (bare '=' rfl) (by decide)
    rw [readValue, Cursor.skipBlanks_append k blank ends, hnone]
  | quoted given quote clear =>
    have := readValue_quoted given k quote clear rest
    simpa using this
  | unquoted given starts clear ends =>
    rw [List.append_assoc]
    exact readValue_unquoted given k starts clear ends

/-- What an equals sign leads over. -/
theorem exists_isEquals {c d : Cursor} (h : c.skipBlanks.consume? "=" = some d) :
    ∃ equals, IsEquals equals ∧ c.Reads equals d.skipBlanks := by
  obtain ⟨blanks, hblanks, hskip⟩ := c.reads_skipBlanks
  obtain ⟨more, hmore, hskip'⟩ := d.reads_skipBlanks
  refine ⟨blanks ++ '=' :: more, ⟨blanks, more, List.all_eq_true.2 hblanks,
    List.all_eq_true.2 hmore, rfl⟩, ?_⟩
  exact hskip.trans ((Cursor.reads_consume? h).trans hskip')

theorem quote_of_peek? {c : Cursor} (h : (c.peek?.map isQuote).getD false = true) :
    ∃ q tail, isQuote q = true ∧ c.rest = q :: tail := by
  cases hrest : c.rest with
  | nil => simp [Cursor.peek?, hrest] at h
  | cons q tail => exact ⟨q, tail, by simpa [Cursor.peek?, hrest] using h, rfl⟩

/-- A value that is read is spelled as far as it was read. -/
theorem spelledBefore_of_readValue {c d : Cursor} {value : Option Text}
    (h : readValue c = .ok (value, d)) :
    ∃ spelling, SpelledBefore d.rest value spelling ∧ c.Reads spelling d := by
  unfold readValue at h
  split at h
  · rename_i hnone
    cases h
    obtain ⟨blanks, hblanks, hskip⟩ := c.reads_skipBlanks
    refine ⟨blanks, .flag (List.all_eq_true.2 hblanks) (stops_takeWhile c isBlank) ?_, hskip⟩
    intro e he
    rw [beq_eq_false_iff_ne]
    rintro rfl
    obtain ⟨rest, hrest⟩ := List.head?_eq_some_iff.1 he
    rw [Cursor.consume?, if_pos (Cursor.startsWith_iff.2 ⟨rest, hrest.symm⟩)] at hnone
    cases hnone
  · rename_i e hequals
    obtain ⟨equals, hgiven, hbefore⟩ := exists_isEquals hequals
    simp only at h
    split at h
    · split at h
      · rename_i v q after hquoted
        cases h
        obtain ⟨hquote, hreads⟩ := Cursor.reads_quoted? hquoted
        exact ⟨_, .quoted hgiven hquote (not_mem_of_quoted? hquoted), hbefore.trans hreads⟩
      · cases h
    · rename_i hpeek
      cases h
      have hreads := e.skipBlanks.reads_takeWhile isUnquotedChar
      refine ⟨_, .unquoted hgiven ?_ (List.all_eq_true.1 List.all_takeWhile)
        (stops_takeWhile _ _), hbefore.trans hreads⟩
      intro f hf
      have hhead : e.skipBlanks.peek? = some f := by
        rw [← hf, Cursor.peek?]
        exact congrArg List.head? hreads.rest
      rw [hhead] at hpeek
      simp only [Bool.or_eq_false_iff]
      exact ⟨stops_takeWhile e isBlank f hhead, by simpa using hpeek⟩

theorem exists_open_of_readValue {c d : Cursor} (h : readValue c = .error d) :
    ∃ equals q tail, IsEquals equals ∧ isQuote q = true ∧ q ∉ tail ∧ d.rest = q :: tail ∧
      c.Reads equals d := by
  unfold readValue at h
  split at h
  · cases h
  · rename_i e hequals
    obtain ⟨equals, hgiven, hbefore⟩ := exists_isEquals hequals
    simp only at h
    split at h
    · rename_i hpeek
      split at h
      · cases h
      · rename_i hnone
        cases h
        obtain ⟨q, tail, hquote, hrest⟩ := quote_of_peek? hpeek
        have hnever := not_mem_of_quoted?_eq_none hrest hquote hnone
        exact ⟨equals, q, tail, hgiven, hquote, hnever, hrest, hbefore⟩
    · cases h

/-! ### Names -/

section Name

variable {key t : Text} (h : isAttributeName key = true) (k : Nat)

include h

/-- A cursor before a name stays there: there are no blanks, and the tag does not end. -/
theorem stays_at_name :
    (⟨k, key ++ t⟩ : Cursor).skipBlanks = ⟨k, key ++ t⟩ ∧ ¬ atTagEnd ⟨k, key ++ t⟩ = true := by
  cases key with
  | nil => cases h
  | cons c key =>
    rw [isAttributeName, Bool.and_eq_true] at h
    obtain ⟨hblank, -, hgreater, hslash⟩ := Cursor.isAttributeHead_not h.1
    refine ⟨Cursor.skipBlanks_eq_self (Text.forall_head?_cons hblank), ?_⟩
    simp [atTagEnd, Cursor.atEnd, Cursor.startsWith, hgreater.symm, hslash.symm]

theorem read?_name_ok {value : Option Text} {d : Cursor}
    (hends : Text.Stops isAttributeChar t)
    (hvalue : readValue ⟨k + Text.size key, t⟩ = .ok (value, d)) :
    read? ⟨k, key ++ t⟩ = some (.ok (⟨key, value, ⟨k, d.offset⟩⟩, d)) := by
  rw [read?, Cursor.attributeName?_append k h hends]
  simp only [hvalue, Cursor.spanFrom]

theorem read?_name_error {d : Cursor} (hends : Text.Stops isAttributeChar t)
    (hvalue : readValue ⟨k + Text.size key, t⟩ = .error d) :
    read? ⟨k, key ++ t⟩ = some (.error ⟨key, ⟨k, d.offset⟩⟩) := by
  rw [read?, Cursor.attributeName?_append k h hends]
  simp only [hvalue, Cursor.spanFrom]

end Name

/-! ### What the readers make of a list -/

theorem atTagEnd_iff {c : Cursor} : atTagEnd c = true ↔ TagEnds c.rest := by
  simp only [atTagEnd, TagEnds, Bool.or_eq_true, Cursor.startsWith_iff, Cursor.atEnd,
    List.isEmpty_iff, or_assoc]

/-- At the end of a tag there are no blanks to skip. -/
theorem skipBlanks_of_tagEnds {k : Nat} {t : Text} (h : TagEnds t) :
    (⟨k, t⟩ : Cursor).skipBlanks = ⟨k, t⟩ := by
  apply Cursor.skipBlanks_eq_self
  obtain rfl | ⟨rest, rfl⟩ | ⟨rest, rfl⟩ := h
  · intro d hd
    cases hd
  · exact Text.forall_head?_cons (by decide)
  · exact Text.forall_head?_cons (by decide)

/-- A character that starts no name is passed over, alone or with the blanks around it. -/
theorem passes_over {k : Nat} {c : Char} {t : Text} (hgoes : ¬ TagEnds (c :: t))
    (hnameless : isAttributeHead c = false) :
    (⟨k, c :: t⟩ : Cursor).skipBlanks = (⟨k + c.utf8Size, t⟩ : Cursor).skipBlanks ∨
      (⟨k, c :: t⟩ : Cursor).skipBlanks = ⟨k, c :: t⟩ ∧ ¬ atTagEnd ⟨k, c :: t⟩ = true ∧
        read? ⟨k, c :: t⟩ = none ∧
        (⟨k, c :: t⟩ : Cursor).advance 1 = ⟨k + c.utf8Size, t⟩ := by
  cases hblank : isBlank c with
  | true =>
    left
    simp [Cursor.skipBlanks, Cursor.takeWhile, Cursor.advance, hblank, Nat.add_assoc]
  | false =>
    refine .inr ⟨Cursor.skipBlanks_eq_self (Text.forall_head?_cons hblank),
      mt atTagEnd_iff.1 hgoes, ?_, ?_⟩
    · simp [read?, Cursor.attributeName?, Cursor.name?, hnameless]
    · simp [Cursor.advance]

theorem readAll_of_listed {c : Cursor} {as : List Attribute} {e : Except Unterminated Cursor}
    (h : Listed c as e) : readAll c = e.map fun d => (as, d) := by
  induction h with
  | done ends =>
    rw [readAll_eq, skipBlanks_of_tagEnds ends, if_pos (atTagEnd_iff.2 ends)]
    rfl
  | skip goes nameless _ ih =>
    obtain hblank | ⟨hskip, hend, hread, hnext⟩ := passes_over goes nameless
    · rw [← readAll_skipBlanks, hblank, readAll_skipBlanks, ih]
    · rw [readAll_eq, hskip, if_neg hend, hread]
      simp only [hnext, ih]
  | @cons k key spelling rest value as e name ends spelled _ ih =>
    obtain ⟨hskip, hend⟩ := stays_at_name name k
    have hread := read?_name_ok name k ends (readValue_of_spelledBefore spelled _)
    rw [readAll_eq, hskip, if_neg hend, hread]
    simp only [Nat.add_assoc, ← Text.size_append, ih]
    cases e <;> rfl
  | @unterminated k key equals tail q name ends given quote clear =>
    obtain ⟨hskip, hend⟩ := stays_at_name name k
    have hread := read?_name_error name k ends (readValue_open given _ quote clear)
    rw [readAll_eq, hskip, if_neg hend, hread]
    simp only [Nat.add_assoc, ← Text.size_append]
    rfl

/-- The first attribute whose key is among `seen` or comes before it. -/
def repeated? (seen : List Text) : List Attribute → Option Attribute
  | [] => none
  | a :: as => if seen.contains a.key then some a else repeated? (a.key :: seen) as

theorem repeated?_eq_none_iff {seen : List Text} {as : List Attribute} :
    repeated? seen as = none ↔ (as.map Attribute.key).Nodup ∧ ∀ a ∈ as, a.key ∉ seen := by
  induction as generalizing seen with
  | nil => simp [repeated?]
  | cons a as ih =>
    simp only [repeated?, List.contains_iff_mem]
    split
    · next hseen => simp [hseen]
    · next hnew =>
      simp only [ih, List.map_cons, List.nodup_cons, List.mem_map, List.mem_cons, not_or,
        forall_eq_or_imp]
      grind

theorem readDistinct_of_listed {c : Cursor} {as : List Attribute} {e : Except Unterminated Cursor}
    (h : Listed c as e) (seen : List Text) :
    readDistinct seen c =
      match repeated? seen as with
      | some a => .error (.duplicate a.key a.span)
      | none => (e.map fun d => (as, d)).mapError .unterminated := by
  induction h generalizing seen with
  | done ends =>
    rw [readDistinct_eq, skipBlanks_of_tagEnds ends, if_pos (atTagEnd_iff.2 ends)]
    rfl
  | skip goes nameless _ ih =>
    obtain hblank | ⟨hskip, hend, hread, hnext⟩ := passes_over goes nameless
    · rw [← readDistinct_skipBlanks, hblank, readDistinct_skipBlanks, ih]
    · rw [readDistinct_eq, hskip, if_neg hend, hread]
      simp only [hnext, ih]
  | @cons k key spelling rest value as e name ends spelled _ ih =>
    obtain ⟨hskip, hend⟩ := stays_at_name name k
    have hread := read?_name_ok name k ends (readValue_of_spelledBefore spelled _)
    rw [readDistinct_eq, hskip, if_neg hend, hread]
    simp only [Nat.add_assoc, ← Text.size_append, ih, repeated?, List.contains_iff_mem]
    split
    · rfl
    · cases repeated? (key :: seen) as with
      | some a => rfl
      | none => cases e <;> rfl
  | @unterminated k key equals tail q name ends given quote clear =>
    obtain ⟨hskip, hend⟩ := stays_at_name name k
    have hread := read?_name_error name k ends (readValue_open given _ quote clear)
    rw [readDistinct_eq, hskip, if_neg hend, hread]
    simp only [Nat.add_assoc, ← Text.size_append]
    rfl

/-- Where a name can start there is one, and it takes all it can. -/
theorem exists_name {c : Char} (t : Text) (h : isAttributeHead c = true) :
    ∃ key rest, c :: t = key ++ rest ∧ isAttributeName key = true ∧
      Text.Stops isAttributeChar rest ∧ rest.length ≤ t.length := by
  refine ⟨c :: t.takeWhile isAttributeChar, t.dropWhile isAttributeChar, ?_, ?_, ?_, ?_⟩
  · rw [List.cons_append, List.takeWhile_append_dropWhile]
  · rw [isAttributeName, h, Bool.true_and]
    exact List.all_takeWhile
  · have hstops := stops_takeWhile (.start t) isAttributeChar
    rwa [Cursor.takeWhile_rest] at hstops
  · exact (List.dropWhile_sublist isAttributeChar).length_le

/-- Every text lists some attributes. -/
theorem exists_listed (c : Cursor) : ∃ as e, Listed c as e := by
  obtain ⟨k, t⟩ := c
  induction hlength : t.length using Nat.strong_induction_on generalizing k t with
  | _ n ih =>
    by_cases hends : TagEnds t
    · exact ⟨[], _, .done hends⟩
    · cases t with
      | nil => exact absurd (.inl rfl) hends
      | cons c t =>
        rw [List.length_cons] at hlength
        cases hhead : isAttributeHead c with
        | false =>
          obtain ⟨as, e, hmore⟩ := ih t.length (by omega) (k + c.utf8Size) t rfl
          exact ⟨as, e, .skip hends hhead hmore⟩
        | true =>
          obtain ⟨key, rest, hcut, hname, hstops, hshorter⟩ := exists_name t hhead
          rw [hcut]
          -- what follows the name is read as its value, or has a quote that is never closed
          cases hvalue : readValue ⟨k + Text.size key, rest⟩ with
          | ok found =>
            obtain ⟨value, after⟩ := found
            obtain ⟨spelling, hspelled, hreads⟩ := spelledBefore_of_readValue hvalue
            have hrest : rest = spelling ++ after.rest := hreads.rest
            have hless : after.rest.length < n := by
              have := congrArg List.length hrest
              rw [List.length_append] at this
              omega
            obtain ⟨as, e, hmore⟩ := ih after.rest.length hless _ after.rest rfl
            rw [hrest] at hstops ⊢
            exact ⟨_, e, .cons hname hstops hspelled hmore⟩
          | error stuck =>
            obtain ⟨equals, q, tail, hgiven, hquote, hclear, htail, hreads⟩ :=
              exists_open_of_readValue hvalue
            have hrest : rest = equals ++ stuck.rest := hreads.rest
            rw [hrest, htail] at hstops ⊢
            exact ⟨[], _, .unterminated hname hstops hgiven hquote hclear⟩

section Compared

variable {c : Cursor} {as : List Attribute} {e : Except Unterminated Cursor} (h : Listed c as e)

include h

theorem readDistinct_of_nodup (hkeys : (as.map Attribute.key).Nodup) :
    readDistinct [] c = (readAll c).mapError .unterminated := by
  have hnone : repeated? [] as = none := repeated?_eq_none_iff.2 ⟨hkeys, by simp⟩
  rw [readDistinct_of_listed h, hnone, readAll_of_listed h]

theorem readDistinct_of_not_nodup (hkeys : ¬ (as.map Attribute.key).Nodup) :
    ∃ a : Attribute, readDistinct [] c = .error (.duplicate a.key a.span) := by
  cases hrepeated : repeated? [] as with
  | none => exact absurd (repeated?_eq_none_iff.1 hrepeated).1 hkeys
  | some a => exact ⟨a, by rw [readDistinct_of_listed h, hrepeated]⟩

/-- What is read in full is what is listed. -/
theorem eq_of_readAll {bs : List Attribute} {d : Cursor} (hall : readAll c = .ok (bs, d)) :
    bs = as := by
  rw [readAll_of_listed h] at hall
  cases e with
  | error u => cases hall
  | ok last =>
    cases hall
    rfl

end Compared

theorem readDistinct_ok_iff {c d : Cursor} {as : List Attribute} :
    readDistinct [] c = .ok (as, d) ↔
      readAll c = .ok (as, d) ∧ (as.map Attribute.key).Nodup := by
  obtain ⟨bs, e, hlisted⟩ := exists_listed c
  by_cases hkeys : (bs.map Attribute.key).Nodup
  · rw [readDistinct_of_nodup hlisted hkeys]
    cases hall : readAll c with
    | error u => simp [Except.mapError]
    | ok found =>
      simp only [Except.mapError, Except.ok.injEq, iff_self_and]
      rintro rfl
      rwa [eq_of_readAll hlisted hall]
  · obtain ⟨a, hduplicate⟩ := readDistinct_of_not_nodup hlisted hkeys
    rw [hduplicate]
    simp only [reduceCtorEq, false_iff, not_and]
    intro hall
    rwa [eq_of_readAll hlisted hall]

theorem readAll_of_unterminated {c : Cursor} {u : Unterminated}
    (h : readDistinct [] c = .error (.unterminated u)) : readAll c = .error u := by
  obtain ⟨as, e, hlisted⟩ := exists_listed c
  by_cases hkeys : (as.map Attribute.key).Nodup
  · rw [readDistinct_of_nodup hlisted hkeys] at h
    cases hall : readAll c with
    | error u' =>
      rw [hall] at h
      cases h
      rfl
    | ok found =>
      rw [hall] at h
      cases h
  · obtain ⟨a, hduplicate⟩ := readDistinct_of_not_nodup hlisted hkeys
    rw [hduplicate] at h
    cases h

/-- A fault of duplicate keys is found exactly if a key is listed twice. -/
theorem exists_duplicate_iff {c : Cursor} :
    (∃ key span, readDistinct [] c = .error (.duplicate key span)) ↔
      ∃ as e, Listed c as e ∧ ¬ (as.map Attribute.key).Nodup := by
  constructor
  · rintro ⟨key, span, hduplicate⟩
    obtain ⟨as, e, hlisted⟩ := exists_listed c
    refine ⟨as, e, hlisted, fun hkeys => ?_⟩
    rw [readDistinct_of_nodup hlisted hkeys] at hduplicate
    cases hall : readAll c <;> rw [hall] at hduplicate <;> cases hduplicate
  · rintro ⟨as, e, hlisted, hkeys⟩
    obtain ⟨a, hduplicate⟩ := readDistinct_of_not_nodup hlisted hkeys
    exact ⟨a.key, a.span, hduplicate⟩

theorem code_inTag_iff (fault : Fault) :
    ((Template.Fault.inTag fault).code = ("unterminated-attribute" : Text) ↔
        ∃ u, fault = .unterminated u) ∧
      ((Template.Fault.inTag fault).code = ("duplicate-attribute" : Text) ↔
        ∃ key span, fault = .duplicate key span) := by
  have hne : ("unterminated-attribute" : Text) ≠ ("duplicate-attribute" : Text) := by decide
  cases fault with
  | unterminated u =>
    exact ⟨⟨fun _ => ⟨u, rfl⟩, fun _ => rfl⟩, ⟨fun h => absurd h hne, by rintro ⟨_, _, ⟨⟩⟩⟩⟩
  | duplicate key span =>
    exact ⟨⟨fun h => absurd h hne.symm, by rintro ⟨_, ⟨⟩⟩⟩,
      ⟨fun _ => ⟨key, span, rfl⟩, fun _ => rfl⟩⟩

/-- The two readers agree.  What the reader of templates accepts is what the reader of components
reads, if no key comes twice; where the one finds a value that is never closed, the other finds it
at the same place; and the first refuses a key as a duplicate exactly if one comes twice before any
value that is never closed. -/
theorem readers_agree (c : Cursor) :
    (∀ as d, readDistinct [] c = .ok (as, d) ↔
      readAll c = .ok (as, d) ∧ (as.map Attribute.key).Nodup) ∧
    (∀ fault, readDistinct [] c = .error fault →
      (Template.Fault.inTag fault).code = ("unterminated-attribute" : Text) →
      ∃ u, readAll c = .error u ∧
        (Component.Fault.unterminatedValue u).code = ("syntax-error" : Text) ∧
        (Component.Fault.unterminatedValue u).span = (Template.Fault.inTag fault).span) ∧
    ((∃ fault, readDistinct [] c = .error fault ∧
        (Template.Fault.inTag fault).code = ("duplicate-attribute" : Text)) ↔
      ∃ as e, Listed c as e ∧ ¬ (as.map Attribute.key).Nodup) := by
  refine ⟨fun as d => readDistinct_ok_iff, fun fault hfault hcode => ?_, ?_⟩
  · obtain ⟨u, rfl⟩ := (code_inTag_iff fault).1.1 hcode
    exact ⟨u, readAll_of_unterminated hfault, rfl, rfl⟩
  · rw [← exists_duplicate_iff]
    constructor
    · rintro ⟨fault, hfault, hcode⟩
      obtain ⟨key, span, rfl⟩ := (code_inTag_iff fault).2.1 hcode
      exact ⟨key, span, hfault⟩
    · rintro ⟨key, span, hfault⟩
      exact ⟨_, hfault, rfl⟩

/-- A tag with a stray character and a value that is never closed, and one with a key twice before
such a value. -/
theorem readers_agree_unclosed :
    (readDistinct [] (.start "a ?b = 'é") = .error (.unterminated ⟨"b", ⟨3, 7⟩⟩) ∧
      ∃ u, readAll (.start "a ?b = 'é") = .error u ∧ u.span = ⟨3, 7⟩) ∧
    (readDistinct [] (.start "a a b='") = .error (.duplicate "a" ⟨2, 4⟩) ∧
      ∃ as e, Listed (.start "a a b='") as e ∧ ¬ (as.map Attribute.key).Nodup) := by
  have hopen : readDistinct [] (.start "a ?b = 'é") = .error (.unterminated ⟨"b", ⟨3, 7⟩⟩) := by
    decide +kernel
  have htwice : readDistinct [] (.start "a a b='") = .error (.duplicate "a" ⟨2, 4⟩) := by
    decide +kernel
  obtain ⟨u, hall, -, hspan⟩ := (readers_agree (.start "a ?b = 'é")).2.1 _ hopen rfl
  exact ⟨⟨hopen, u, hall, hspan⟩, htwice,
    (readers_agree (.start "a a b='")).2.2.1 ⟨_, htwice, rfl⟩⟩

end Attribute

end Wxml
