import Mathlib.Data.List.Basic
import Wxml.Directive.Conversion

/-!
# What a directive contributes

The rule of a directive (`Directive.convert`) first checks the directive by itself and then adds
properties to those of the attributes before it.  The two parts are separated here:

* `Directive.refusals` are the faults that the rule finds in the directive alone, in the order it
  looks for them, and `Directive.sets` the properties it adds; `Directive.convert_eq` says that the
  rule is nothing but these;
* `Property.Fits` says when a property can be added to others, in terms of all properties that were
  added before; `Collected` ties these to the list they became, in which a class or a style may have
  been merged.
-/

namespace Wxml

open Rendering (Fault)

namespace Directive

/-! ### Checks on a directive alone -/

/-- A modifier where none may be. -/
def modifierFault? (d : Directive) : Option Fault :=
  d.modifiers.head?.map fun modifier => .modifier d.key modifier d.span

/-- A missing value. -/
def valueFault? (d : Directive) : Option Fault :=
  if d.value.isSome then none else some (.expression d.key .missingValue d.span)

/-- Whether a binding is to an object or an array. -/
def startsObject (value : Text) : Bool :=
  (Text.trimStart value).head? == some '\x7b' || (Text.trimStart value).head? == some '['

/-- An object or an array as a value. -/
def objectFault? (d : Directive) : Option Fault :=
  d.value.bind fun value =>
    if startsObject value then some (.expression value .objectOrArray d.span) else none

/-- A filter in the value. -/
def filterFault? (d : Directive) : Option Fault :=
  d.value.bind fun value =>
    if Expression.hasFilter value then some (.expression value .filter d.span) else none

/-- An event without a counterpart. -/
def eventFault? (d : Directive) : Option Fault :=
  if (Vocabulary.event? d.name).isSome then none else some (.event d.name d.span)

/-- The modifiers an event may have. -/
def isListening (modifier : Text) : Bool :=
  modifier == ("stop" : Text) || modifier == ("capture" : Text)

/-- A modifier that no event has. -/
def listeningFault? (d : Directive) : Option Fault :=
  (d.modifiers.find? (!isListening ·)).map fun modifier => .modifier d.key modifier d.span

/-- A missing handler. -/
def handlerFault? (d : Directive) : Option Fault :=
  if d.value.isSome then none else some (.expression d.key .missingHandler d.span)

/-- A loop that is malformed, or no loop at all. -/
def loopFault? (loop : Option (Except Fault Loop)) (d : Directive) : Option Fault :=
  match loop with
  | none => some (.expression (d.value.getD []) .loopForm d.span)
  | some (.error fault) => some fault
  | some (.ok _) => none

/-- A key that is not about the item of a loop. -/
def keyFault? (loop : Option (Except Fault Loop)) (d : Directive) : Option Fault :=
  match loop with
  | some (.ok loop) =>
    if (keyName? loop.item (Text.trim (d.value.getD []))).isSome then none
    else some (.expression (d.value.getD []) (.keyForm loop.item) d.span)
  | _ => none

/-- The checks of a directive on an element with this loop, in their order. -/
def checks (loop : Option (Except Fault Loop)) (d : Directive) : List (Option Fault) :=
  match d.kind with
  | .bind => [d.modifierFault?, d.valueFault?, d.objectFault?, d.filterFault?]
  | .on => [d.eventFault?, d.listeningFault?, d.handlerFault?]
  | .text | .when | .elseWhen => [d.modifierFault?, d.valueFault?, d.filterFault?]
  | .html => [some (.directive d.key .rawHtml d.span)]
  | .otherwise => [d.modifierFault?]
  | .loop => [d.modifierFault?, d.loopFault? loop]
  | .key => [d.modifierFault?, d.valueFault?, d.keyFault? loop]
  | .unsupported => [some (.directive d.key d.unsupportedReason d.span)]
  | .literal => []

/-- The faults of a directive alone, in the order they are looked for. -/
def refusals (loop : Option (Except Fault Loop)) (d : Directive) : List Fault :=
  (d.checks loop).filterMap id

/-! ### What a directive adds -/

/-- How an event with these modifiers is caught. -/
def caught (modifiers : List Text) : Listening :=
  ⟨modifiers.contains ("stop" : Text), modifiers.contains ("capture" : Text)⟩

/-- The properties that a directive sets on an element with this loop. -/
def sets (loop : Option (Except Fault Loop)) (d : Directive) : List Property :=
  match d.kind with
  | .bind => [binding d.name (d.value.getD [])]
  | .on =>
    [fixed ((caught d.modifiers).mark ++ (Vocabulary.event? d.name).getD []) (d.value.getD [])]
  | .when => [binding "wx:if" (d.value.getD [])]
  | .elseWhen => [binding "wx:elif" (d.value.getD [])]
  | .otherwise => [⟨"wx:else", none, false⟩]
  | .loop =>
    match loop with
    | some (.ok loop) =>
      [binding "wx:for" loop.source, fixed "wx:for-item" loop.item] ++
        (loop.index.map (fixed "wx:for-index")).toList
    | _ => []
  | .key =>
    match loop with
    | some (.ok loop) =>
      ((keyName? loop.item (Text.trim (d.value.getD []))).map (fixed "wx:key")).toList
    | _ => []
  | .literal => [⟨d.key, d.value, false⟩]
  | .text | .html | .unsupported => []

/-- The properties with the content that a directive puts into its element. -/
def putContent (d : Directive) (ps : Properties) : Properties :=
  if d.kind = .text then { ps with inserted := some (interpolate (d.value.getD [])) } else ps

end Directive

/-- Adds some properties that a directive sets, one after another. -/
def Properties.insertAll (d : Directive) : List Property → Properties → Except Fault Properties
  | [], ps => .ok ps
  | q :: qs, ps =>
    match ps.insert d q with
    | .error fault => .error fault
    | .ok ps => insertAll d qs ps

namespace Directive

/-- The listening that some modifiers lead to, or the first of them that is none for events. -/
theorem listening_eq (d : Directive) (modifiers : List Text) (soFar : Listening) :
    d.listening soFar modifiers =
      match modifiers.find? (!isListening ·) with
      | some modifier => .error (.modifier d.key modifier d.span)
      | none =>
        .ok ⟨soFar.stop || (caught modifiers).stop,
          soFar.capture || (caught modifiers).capture⟩ := by
  induction modifiers generalizing soFar with
  | nil => simp [listening, caught]
  | cons modifier modifiers ih =>
    rw [listening]
    split
    · rename_i hstop
      rw [ih]
      simp [hstop, isListening, caught]
    · rename_i hstop
      split
      · rename_i hcapture
        rw [ih]
        simp [hcapture, isListening, caught]
      · rename_i hcapture
        have hother : isListening modifier = false := by
          rw [isListening, Bool.or_eq_false_iff, beq_eq_false_iff_ne, beq_eq_false_iff_ne]
          exact ⟨hstop, hcapture⟩
        simp [hother]

theorem rejectModifiers_eq (d : Directive) :
    d.rejectModifiers =
      match d.modifierFault? with
      | some fault => .error fault
      | none => .ok () := by
  rw [rejectModifiers, modifierFault?]
  cases d.modifiers <;> rfl

theorem requireExpression_eq (d : Directive) :
    d.requireExpression =
      match ([d.modifierFault?, d.valueFault?, d.filterFault?].filterMap id).head? with
      | some fault => .error fault
      | none => .ok (d.value.getD []) := by
  rw [requireExpression, rejectModifiers_eq]
  cases d.modifierFault? with
  | some fault => rfl
  | none =>
    rw [requireValue, valueFault?, filterFault?]
    cases d.value with
    | none => rfl
    | some value =>
      by_cases hfilter : Expression.hasFilter value <;>
        simp [Rendering.rejectFilter, hfilter, bind, Except.bind, pure, Except.pure]

theorem insertAll_singleton (d : Directive) (q : Property) (ps : Properties) :
    Properties.insertAll d [q] ps = ps.insert d q := by
  rw [Properties.insertAll]
  cases ps.insert d q <;> rfl

theorem convertBind_eq (d : Directive) (ps : Properties) :
    d.convertBind ps =
      match ([d.modifierFault?, d.valueFault?, d.objectFault?,
        d.filterFault?].filterMap id).head? with
      | some fault => .error fault
      | none => ps.insert d (binding d.name (d.value.getD [])) := by
  rw [convertBind, rejectModifiers_eq]
  cases d.modifierFault? with
  | some fault => rfl
  | none =>
    rw [requireValue, valueFault?, objectFault?, filterFault?]
    cases d.value with
    | none => rfl
    | some value =>
      simp only [bind, Except.bind, Option.isSome_some, ↓reduceIte, Option.bind_some]
      split
      · rename_i hobject
        simp [startsObject, hobject]
      · rename_i harray
        simp [startsObject, harray]
      · rename_i hobject harray
        have hplain : startsObject value = false := by
          cases htrim : Text.trimStart value with
          | nil => simp [startsObject, htrim]
          | cons c t =>
            rw [startsObject, htrim, Bool.or_eq_false_iff]
            refine ⟨?_, ?_⟩
            · simp only [List.head?_cons, beq_eq_false_iff_ne, ne_eq, Option.some.injEq]
              rintro rfl
              exact hobject t htrim
            · simp only [List.head?_cons, beq_eq_false_iff_ne, ne_eq, Option.some.injEq]
              rintro rfl
              exact harray t htrim
        by_cases hfilter : Expression.hasFilter value <;>
          simp [Rendering.rejectFilter, hfilter, hplain]

theorem convertOn_eq (d : Directive) (ps : Properties) :
    d.convertOn ps =
      match ([d.eventFault?, d.listeningFault?, d.handlerFault?].filterMap id).head? with
      | some fault => .error fault
      | none =>
        ps.insert d (fixed ((caught d.modifiers).mark ++ (Vocabulary.event? d.name).getD [])
          (d.value.getD [])) := by
  rw [convertOn, eventFault?, listeningFault?, handlerFault?]
  cases Vocabulary.event? d.name with
  | none => rfl
  | some event =>
    rw [listening_eq]
    cases d.modifiers.find? (!isListening ·) with
    | some modifier => rfl
    | none => cases d.value <;> simp

theorem convertLoop_eq (loop : Option (Except Fault Loop)) (d : Directive) (ps : Properties)
    (hkind : d.kind = .loop) :
    d.convertLoop loop ps =
      match ([d.modifierFault?, d.loopFault? loop].filterMap id).head? with
      | some fault => .error fault
      | none => Properties.insertAll d (d.sets loop) ps := by
  unfold convertLoop sets
  rw [rejectModifiers_eq, hkind]
  cases d.modifierFault? with
  | some fault => rfl
  | none =>
    match loop with
    | none => rfl
    | some (.error fault) => rfl
    | some (.ok loop) =>
      simp only [bind, Except.bind, loopFault?, List.filterMap_cons_none, id_eq, List.filterMap_nil,
        List.head?_nil, List.cons_append, List.nil_append, Properties.insertAll]
      cases ps.insert d (binding "wx:for" loop.source) with
      | error fault => rfl
      | ok ps =>
        simp only
        cases ps.insert d (fixed "wx:for-item" loop.item) with
        | error fault => rfl
        | ok ps =>
          cases loop.index with
          | none => rfl
          | some index => exact (insertAll_singleton d _ ps).symm

theorem convertKey_eq (loop : Option (Except Fault Loop)) (d : Directive) (ps : Properties)
    (hkind : d.kind = .key) :
    d.convertKey loop ps =
      match ([d.modifierFault?, d.valueFault?, d.keyFault? loop].filterMap id).head? with
      | some fault => .error fault
      | none => Properties.insertAll d (d.sets loop) ps := by
  unfold convertKey sets keyFault? valueFault?
  rw [rejectModifiers_eq, requireValue, hkind]
  cases d.modifierFault? with
  | some fault => rfl
  | none =>
    cases d.value with
    | none => rfl
    | some value =>
      match loop with
      | none => rfl
      | some (.error fault) => rfl
      | some (.ok loop) =>
        simp only [bind, Except.bind, Option.getD_some]
        cases keyName? loop.item (Text.trim value) with
        | none => rfl
        | some key => exact (insertAll_singleton d _ ps).symm

/-- The rule of a directive: its own faults come first, then what it adds. -/
theorem convert_eq (loop : Option (Except Fault Loop)) (d : Directive) (ps : Properties) :
    d.convert loop ps =
      match (d.refusals loop).head? with
      | some fault => .error fault
      | none => Properties.insertAll d (d.sets loop) (d.putContent ps) := by
  rw [convert, refusals, checks, putContent]
  cases hkind : d.kind with
  | bind => simp only [convertBind_eq, sets, hkind, insertAll_singleton, reduceCtorEq, ↓reduceIte]
  | on => simp only [convertOn_eq, sets, hkind, insertAll_singleton, reduceCtorEq, ↓reduceIte]
  | text =>
    simp only [convertText, requireExpression_eq, sets, hkind, Properties.insertAll, ↓reduceIte]
    cases ([d.modifierFault?, d.valueFault?, d.filterFault?].filterMap id).head? <;> rfl
  | html => rfl
  | when =>
    simp only [convertCondition, requireExpression_eq, sets, hkind, insertAll_singleton,
      reduceCtorEq, ↓reduceIte]
    cases ([d.modifierFault?, d.valueFault?, d.filterFault?].filterMap id).head? <;> rfl
  | elseWhen =>
    simp only [convertCondition, requireExpression_eq, sets, hkind, insertAll_singleton,
      reduceCtorEq, ↓reduceIte]
    cases ([d.modifierFault?, d.valueFault?, d.filterFault?].filterMap id).head? <;> rfl
  | otherwise =>
    simp only [convertOtherwise, rejectModifiers_eq, sets, hkind, insertAll_singleton,
      reduceCtorEq, ↓reduceIte]
    cases d.modifierFault? <;> rfl
  | loop => simp only [convertLoop_eq loop d ps hkind, reduceCtorEq, ↓reduceIte]
  | key => simp only [convertKey_eq loop d ps hkind, reduceCtorEq, ↓reduceIte]
  | unsupported => rfl
  | literal => simp [sets, hkind, insertAll_singleton]

end Directive

/-! ### Properties that go together -/

namespace Property

/-- Whether a property can be added after others: its name is new, or it is the class or style that
completes theirs.  All of them have values then, and it is bound exactly if none of them is. -/
def Fits (earlier : List Property) (q : Property) : Prop :=
  (∀ p ∈ earlier, p.name ≠ q.name) ∨
    (q.name = ("class" : Text) ∨ q.name = ("style" : Text)) ∧ q.value.isSome = true ∧
      (∀ p ∈ earlier, p.name = q.name → p.value.isSome = true) ∧
      (q.bound = true ↔ ∀ p ∈ earlier, p.name = q.name → p.bound = false)

instance (earlier : List Property) (q : Property) : Decidable (Fits earlier q) :=
  inferInstanceAs (Decidable (_ ∨ _))

theorem separator?_isSome_iff (name : Text) :
    (separator? name).isSome = true ↔ name = ("class" : Text) ∨ name = ("style" : Text) := by
  unfold separator?
  split
  · simp_all
  · split <;> simp_all

theorem merge?_isSome_iff (p q : Property) :
    (p.merge? q).isSome = true ↔
      (separator? p.name).isSome = true ∧ p.value.isSome = true ∧ q.value.isSome = true ∧
        p.bound ≠ q.bound := by
  unfold merge?
  cases separator? p.name with
  | none => simp
  | some separator =>
    cases p.value with
    | none => simp
    | some v =>
      cases q.value with
      | none => simp
      | some w =>
        by_cases hbound : p.bound = q.bound
        · simp [hbound]
        · by_cases hp : p.bound <;> simp_all

theorem merge?_eq_some {p q m : Property} (h : p.merge? q = some m) :
    m.name = p.name ∧ m.value.isSome = true ∧ m.bound = true := by
  unfold merge? at h
  split at h
  · split at h
    · simp at h
    · split at h <;> · cases h; exact ⟨rfl, rfl, rfl⟩
  · simp at h

/-- What adding a property does to the list. -/
theorem add?_eq_some {q : Property} {ps ps' : List Property} (h : add? q ps = some ps') :
    ((∀ p ∈ ps, p.name ≠ q.name) ∧ ps' = ps ++ [q]) ∨
      ∃ before p after m, ps = before ++ p :: after ∧ p.name = q.name ∧ p.merge? q = some m ∧
        ps' = before ++ m :: after := by
  induction ps generalizing ps' with
  | nil =>
    cases h
    exact .inl ⟨by simp, rfl⟩
  | cons p ps ih =>
    rw [add?] at h
    split at h
    · rename_i hname
      obtain ⟨m, hm, rfl⟩ := Option.map_eq_some_iff.1 h
      exact .inr ⟨[], p, ps, m, rfl, hname, hm, rfl⟩
    · rename_i hname
      obtain ⟨rest, hrest, rfl⟩ := Option.map_eq_some_iff.1 h
      obtain ⟨hnew, rfl⟩ | ⟨before, r, after, m, rfl, hr, hm, rfl⟩ := ih hrest
      · refine .inl ⟨?_, rfl⟩
        intro r hr
        cases List.mem_cons.1 hr with
        | inl same => exact same ▸ hname
        | inr mem => exact hnew r mem
      · exact .inr ⟨p :: before, r, after, m, rfl, hr, hm, rfl⟩

/-- A property that cannot be added meets one of its name that it does not merge with. -/
theorem add?_eq_none {q : Property} {ps : List Property} (h : add? q ps = none) :
    ∃ p ∈ ps, p.name = q.name ∧ p.merge? q = none := by
  induction ps with
  | nil => simp [add?] at h
  | cons p ps ih =>
    rw [add?] at h
    split at h
    · rename_i hname
      exact ⟨p, by simp, hname, by simpa using h⟩
    · obtain ⟨r, mem, hr⟩ := ih (by simpa using h)
      exact ⟨r, List.mem_cons_of_mem _ mem, hr⟩

end Property

/-- The list `ps` is what the properties `earlier` became when they were added one by one. -/
structure Collected (earlier ps : List Property) : Prop where
  nodup : (ps.map Property.name).Nodup
  covers : ∀ e ∈ earlier, ∃ p ∈ ps, p.name = e.name
  exists_source : ∀ p ∈ ps, ∃ e ∈ earlier, e.name = p.name
  value_iff : ∀ p ∈ ps,
    p.value.isSome = true ↔ ∀ e ∈ earlier, e.name = p.name → e.value.isSome = true
  bound_iff : ∀ p ∈ ps, p.bound = true ↔ ∃ e ∈ earlier, e.name = p.name ∧ e.bound = true

namespace Collected

open Property

theorem nil : Collected [] [] := by constructor <;> simp

/-- A property can be added to the list exactly if it fits to all that were added before. -/
theorem isSome_add?_iff {earlier ps : List Property} (h : Collected earlier ps) (q : Property) :
    (add? q ps).isSome = true ↔ Fits earlier q := by
  constructor
  · intro hadd
    obtain ⟨ps', hadd⟩ := Option.isSome_iff_exists.1 hadd
    obtain ⟨hnew, -⟩ | ⟨before, p, after, m, rfl, hname, hm, -⟩ := add?_eq_some hadd
    · left
      intro e he hq
      obtain ⟨p, hp, hpe⟩ := h.covers e he
      exact hnew p hp (hpe.trans hq)
    · right
      have mem : p ∈ before ++ p :: after := by simp
      have hmerge := (merge?_isSome_iff p q).1 (Option.isSome_iff_exists.2 ⟨m, hm⟩)
      obtain ⟨hsep, hpv, hqv, hbound⟩ := hmerge
      rw [separator?_isSome_iff, hname] at hsep
      refine ⟨hsep, hqv, ?_, ?_⟩
      · rw [← hname]
        exact (h.value_iff p mem).1 hpv
      · have := h.bound_iff p mem
        rw [hname] at this
        cases hp : p.bound <;> cases hq : q.bound <;> grind
  · intro fits
    cases hadd : add? q ps with
    | some ps' => rfl
    | none =>
      obtain ⟨p, mem, hname, hm⟩ := add?_eq_none hadd
      obtain ⟨e, he, hep⟩ := h.exists_source p mem
      obtain hnew | ⟨hsep, hqv, hvalues, hbound⟩ := fits
      · exact absurd (hep.trans hname) (hnew e he)
      · have hsome : (p.merge? q).isSome = true := by
          refine (merge?_isSome_iff p q).2 ⟨?_, ?_, hqv, ?_⟩
          · rwa [separator?_isSome_iff, hname]
          · rw [h.value_iff p mem, hname]
            exact hvalues
          · have := h.bound_iff p mem
            rw [hname] at this
            cases hp : p.bound <;> cases hq : q.bound <;> grind
        simp [hm] at hsome

/-- A property with a new name is one more of the list. -/
theorem append {earlier ps : List Property} {q : Property} (h : Collected earlier ps)
    (hnew : ∀ p ∈ ps, p.name ≠ q.name) : Collected (earlier ++ [q]) (ps ++ [q]) := by
  have hfresh : ∀ e ∈ earlier, e.name ≠ q.name := by
    intro e he hq
    obtain ⟨p, hp, hpe⟩ := h.covers e he
    exact hnew p hp (hpe.trans hq)
  constructor
  · rw [List.map_append, List.nodup_append]
    refine ⟨h.nodup, by simp, ?_⟩
    simpa using hnew
  · intro e he
    cases List.mem_append.1 he with
    | inl old =>
      obtain ⟨p, hp, hpe⟩ := h.covers e old
      exact ⟨p, by simp [hp], hpe⟩
    | inr new => exact ⟨e, List.mem_append_right _ new, rfl⟩
  · intro p hp
    cases List.mem_append.1 hp with
    | inl old =>
      obtain ⟨e, he, hep⟩ := h.exists_source p old
      exact ⟨e, by simp [he], hep⟩
    | inr new => exact ⟨p, List.mem_append_right _ new, rfl⟩
  · intro p hp
    cases List.mem_append.1 hp with
    | inl old =>
      rw [h.value_iff p old]
      grind
    | inr new => grind
  · intro p hp
    cases List.mem_append.1 hp with
    | inl old =>
      rw [h.bound_iff p old]
      grind
    | inr new => grind

/-- No two properties of the list have one name. -/
theorem others {earlier before after : List Property} {p r : Property}
    (h : Collected earlier (before ++ p :: after)) (hr : r ∈ before ∨ r ∈ after) :
    r ∈ before ++ p :: after ∧ r.name ≠ p.name := by
  have := h.nodup
  simp only [List.map_append, List.map_cons, List.nodup_append, List.nodup_cons, List.mem_map,
    List.mem_cons] at this
  grind

/-- A property that is merged with the one of its name. -/
theorem merge {earlier before after : List Property} {p q m : Property}
    (h : Collected earlier (before ++ p :: after)) (hname : p.name = q.name)
    (hm : p.merge? q = some m) : Collected (earlier ++ [q]) (before ++ m :: after) := by
  obtain ⟨hmname, hmvalue, hmbound⟩ := merge?_eq_some hm
  obtain ⟨-, hpv, hqv, hbound⟩ := (merge?_isSome_iff p q).1 (Option.isSome_iff_exists.2 ⟨m, hm⟩)
  have mem : p ∈ before ++ p :: after := by simp
  have others : ∀ r, r ∈ before ∨ r ∈ after → r ∈ before ++ p :: after ∧ r.name ≠ q.name :=
    fun r hr => hname ▸ h.others hr
  constructor
  · have := h.nodup
    simpa [hmname] using this
  · intro e he
    cases List.mem_append.1 he with
    | inl old =>
      obtain ⟨r, hr, hre⟩ := h.covers e old
      grind
    | inr new => grind
  · intro r hr
    have := h.exists_source
    grind
  · intro r hr
    have := h.value_iff
    grind
  · intro r hr
    have := h.bound_iff
    grind

/-- Adding one more property. -/
theorem add {earlier ps ps' : List Property} {q : Property} (h : Collected earlier ps)
    (hadd : add? q ps = some ps') : Collected (earlier ++ [q]) ps' := by
  obtain ⟨hnew, rfl⟩ | ⟨before, p, after, m, rfl, hname, hm, rfl⟩ := add?_eq_some hadd
  · exact h.append hnew
  · exact h.merge hname hm

end Collected

end Wxml
