import Wxml.Proofs.Contribution
import Wxml.Proofs.Patterns
import Wxml.Proofs.Text
import Wxml.Proofs.Traversal

/-!
# Which templates are rendered

A template is rendered exactly if each of its nodes can be translated by itself
(`Node.Translatable`), apart from what stands inside void elements; otherwise the first node that
cannot be translated says why.

* `Rendering.visited` lists the nodes that count, in document order.
* `Node.faults` lists what is wrong with a node by itself: for an element its tag, then its
  attributes one after another, then content of a void element.
* `Node.faults_eq_nil_iff` says that nothing is wrong exactly with the translatable nodes.
* `plain_faults` follows the rendering through the tree.
* `ofNode_ok_iff_and_first_fault` is the result.
-/

namespace Wxml

open Rendering (Fault)

/-! ### What is wrong with the attributes of an element -/

namespace Property

/-- Whether some properties can be added one by one after others. -/
def AllFit (earlier : List Property) : List Property → Prop
  | [] => True
  | q :: qs => Fits earlier q ∧ AllFit (earlier ++ [q]) qs

theorem allFit_append (earlier qs rs : List Property) :
    AllFit earlier (qs ++ rs) ↔ AllFit earlier qs ∧ AllFit (earlier ++ qs) rs := by
  induction qs generalizing earlier with
  | nil => simp [AllFit]
  | cons q qs ih => simp [AllFit, ih, and_assoc]

/-- Of two properties of one name, one is a class or a style. -/
theorem AllFit.merges {earlier qs : List Property} (h : AllFit earlier qs) {p q : Property}
    (hp : p ∈ earlier) (hq : q ∈ qs) (hname : p.name = q.name) :
    q.name = ("class" : Text) ∨ q.name = ("style" : Text) := by
  induction qs generalizing earlier with
  | nil => cases hq
  | cons r qs ih =>
    cases List.mem_cons.1 hq with
    | inl same =>
      subst same
      obtain hnew | ⟨hmerges, -⟩ := h.1
      · exact absurd hname (hnew p hp)
      · exact hmerges
    | inr mem => exact ih h.2 (List.mem_append_left _ hp) mem

end Property

namespace Directive

/-- The properties of a directive that do not fit to earlier ones. -/
def clashes (d : Directive) (earlier : List Property) : List Property → List Fault
  | [] => []
  | q :: qs =>
    (if Property.Fits earlier q then [] else [.directive d.key (.alreadySet q.name) d.span]) ++
      d.clashes (earlier ++ [q]) qs

theorem clashes_eq_nil_iff (d : Directive) (earlier qs : List Property) :
    d.clashes earlier qs = [] ↔ Property.AllFit earlier qs := by
  induction qs generalizing earlier with
  | nil => simp [clashes, Property.AllFit]
  | cons q qs ih =>
    by_cases hfits : Property.Fits earlier q <;> simp [clashes, Property.AllFit, ih, hfits]

/-- What is wrong with a directive, by itself and after properties set before it. -/
def faults (loop : Option (Except Fault Loop)) (earlier : List Property) (d : Directive) :
    List Fault :=
  d.refusals loop ++ d.clashes earlier (d.sets loop)

/-- What is wrong with some directives of one element, in their order. -/
def allFaults (loop : Option (Except Fault Loop)) (earlier : List Property) :
    List Directive → List Fault
  | [] => []
  | d :: ds => d.faults loop earlier ++ allFaults loop (earlier ++ d.sets loop) ds

theorem allFaults_eq_nil_iff (loop : Option (Except Fault Loop)) (earlier : List Property)
    (ds : List Directive) :
    allFaults loop earlier ds = [] ↔
      (∀ d ∈ ds, d.refusals loop = []) ∧ Property.AllFit earlier (ds.flatMap (·.sets loop)) := by
  induction ds generalizing earlier with
  | nil => simp [allFaults, Property.AllFit]
  | cons d ds ih =>
    simp only [allFaults, faults, List.append_eq_nil_iff, clashes_eq_nil_iff, ih, List.mem_cons,
      forall_eq_or_imp, List.flatMap_cons, Property.allFit_append]
    tauto

/-- The content that a directive puts into its element. -/
def content? (d : Directive) : Option Text :=
  if d.kind = .text then some (interpolate (d.value.getD [])) else none

/-- There is content if a directive puts some. -/
theorem isSome_content (ds : List Directive) :
    (ds.filterMap content?).getLast?.isSome = ds.any (·.kind = .text) := by
  induction ds with
  | nil => rfl
  | cons d ds ih =>
    by_cases hkind : d.kind = .text
    · simp [content?, hkind, List.getLast?_cons]
    · simpa [content?, hkind] using ih

theorem putContent_inserted (d : Directive) (ps : Properties) :
    (d.putContent ps).inserted = d.content?.or ps.inserted := by
  unfold putContent content?
  split <;> rfl

theorem putContent_list (d : Directive) (ps : Properties) : (d.putContent ps).list = ps.list := by
  unfold putContent
  split <;> rfl

end Directive

namespace Properties

/-- Adding the properties of a directive ends at the first one that does not fit. -/
theorem insertAll_spec (d : Directive) (qs : List Property) {earlier : List Property}
    {ps : Properties} (h : Collected earlier ps.list) :
    match insertAll d qs ps with
    | .error fault => (d.clashes earlier qs).head? = some fault
    | .ok ps' => d.clashes earlier qs = [] ∧ Collected (earlier ++ qs) ps'.list ∧
        ps'.inserted = ps.inserted := by
  induction qs generalizing earlier ps with
  | nil => simpa [insertAll, Directive.clashes] using h
  | cons q qs ih =>
    have hfits := h.isSome_add?_iff q
    rw [insertAll, insert, Directive.clashes]
    cases hadd : Property.add? q ps.list with
    | none => simp_all
    | some list =>
      have hnext : Collected (earlier ++ [q]) ({ ps with list } : Properties).list := h.add hadd
      have := ih hnext
      simp_all

/-- Adding what some attributes set ends at the first thing that is wrong with them. -/
theorem addAll_spec (loop : Option (Except Fault Loop)) (as : List Attribute)
    {earlier : List Property} {ps : Properties} (h : Collected earlier ps.list) :
    let ds := as.map (Directive.ofAttributeIn loop.isSome)
    match addAll loop as ps with
    | .error fault => (Directive.allFaults loop earlier ds).head? = some fault
    | .ok ps' => Directive.allFaults loop earlier ds = [] ∧
        Collected (earlier ++ ds.flatMap (·.sets loop)) ps'.list ∧
        ps'.inserted = (ds.filterMap Directive.content?).getLast?.or ps.inserted := by
  induction as generalizing earlier ps with
  | nil => simpa [addAll, Directive.allFaults] using h
  | cons a as ih =>
    simp only [List.map_cons, addAll, Directive.convert_eq]
    generalize Directive.ofAttributeIn loop.isSome a = d
    rw [Directive.allFaults, Directive.faults]
    cases hrefusals : d.refusals loop with
    | cons fault faults => simp
    | nil =>
      have hcollected : Collected earlier (d.putContent ps).list := by
        rwa [d.putContent_list]
      have hinsert := insertAll_spec d (d.sets loop) hcollected
      simp only [List.head?_nil, List.nil_append]
      cases hall : insertAll d (d.sets loop) (d.putContent ps) with
      | error fault =>
        simp only [hall] at hinsert
        simp [List.head?_append, hinsert]
      | ok ps' =>
        simp only [hall] at hinsert
        obtain ⟨hclashes, hnext, hinserted⟩ := hinsert
        have hrest := ih hnext
        simp only [hclashes, List.nil_append] at hrest ⊢
        cases hadd : addAll loop as ps' with
        | error fault => simpa [hadd] using hrest
        | ok ps'' =>
          simp only [hadd] at hrest
          obtain ⟨hnone, hlist, hcontent⟩ := hrest
          refine ⟨hnone, by simpa [List.append_assoc] using hlist, ?_⟩
          rw [hcontent, hinserted, d.putContent_inserted]
          cases hd : d.content? with
          | none => simp [hd]
          | some text => simp [hd, List.getLast?_cons]

end Properties

/-! ### What is wrong with a node -/

namespace Element

/-- The loop of an element, if it has one. -/
def loop? (e : Element) : Option (Except Fault Loop) := Directive.loop? e.attributes

/-- The directives of an element, in the order its attributes are written. -/
def directives (e : Element) : List Directive :=
  e.attributes.map (Directive.ofAttributeIn e.loop?.isSome)

/-- Whether an element is written without content: the tag it has or the tag it becomes is void. -/
def isVoid (e : Element) : Bool :=
  Vocabulary.isVoid e.tag ||
    match Vocabulary.destination e with
    | .ok tag => Vocabulary.isVoid tag
    | .error _ => false

/-- A tag without a counterpart. -/
def tagFaults (e : Element) : List Fault :=
  match Vocabulary.tagRule? e.tag with
  | some (.rejected reason) => [.tag e.tag reason e.tagSpan]
  | none => [.tag e.tag .unknown e.tagSpan]
  | _ => []

/-- Content of an element that can have none. -/
def contentFaults (e : Element) : List Fault :=
  match Vocabulary.destination e with
  | .ok tag =>
    if e.isVoid && e.directives.any (·.kind = .text) then
      [.directive "v-text" (.voidElement tag) (Rendering.textSpan e)]
    else []
  | .error _ => []

/-- What is wrong with an element, apart from its children. -/
def faults (e : Element) : List Fault :=
  e.tagFaults ++ Directive.allFaults e.loop? [] e.directives ++ e.contentFaults

end Element

/-- What is wrong with a node by itself, in the order it is looked for. -/
def Node.faults : Node → List Fault
  | .element head _ => head.faults
  | .expression raw span =>
    if Expression.hasFilter raw then [.expression raw .filter span] else []
  | .text _ _ => []
  | .comment _ _ => []

namespace Rendering

mutual

/-- The node and the nodes inside it that are not inside a void element, in document order. -/
def visited : Node → List Node
  | .element head children =>
    .element head children :: if head.isVoid then [] else visitedAll children
  | node => [node]

def visitedAll : List Node → List Node
  | [] => []
  | node :: nodes => visited node ++ visitedAll nodes

end

/-- The properties of an element and its content, or what is wrong with its attributes. -/
theorem ofAttributes_spec (e : Element) :
    match Properties.ofAttributes e.attributes with
    | .error fault => (Directive.allFaults e.loop? [] e.directives).head? = some fault
    | .ok ps => Directive.allFaults e.loop? [] e.directives = [] ∧
        Collected (e.directives.flatMap (·.sets e.loop?)) ps.list ∧
        ps.inserted = (e.directives.filterMap Directive.content?).getLast? := by
  have hempty : Collected [] Properties.empty.list := .nil
  have := Properties.addAll_spec e.loop? e.attributes hempty
  simpa [Properties.ofAttributes, Element.directives, Element.loop?, Properties.empty] using this

theorem ofAttributes_ok {e : Element} {ps : Properties}
    (h : Properties.ofAttributes e.attributes = .ok ps) :
    Directive.allFaults e.loop? [] e.directives = [] ∧
      Collected (e.directives.flatMap (·.sets e.loop?)) ps.list ∧
      ps.inserted = (e.directives.filterMap Directive.content?).getLast? := by
  have hspec := ofAttributes_spec e
  rwa [h] at hspec

theorem tagFaults_eq (e : Element) :
    match Vocabulary.destination e with
    | .error fault => e.tagFaults = [fault]
    | .ok _ => e.tagFaults = [] := by
  unfold Vocabulary.destination Element.tagFaults
  cases Vocabulary.tagRule? e.tag with
  | none => rfl
  | some rule => cases rule <;> rfl

/-- An element is put off to a fault exactly by the first thing that is wrong with it. -/
theorem opening_spec (e : Element) :
    match opening e with
    | .error fault => e.faults.head? = some fault
    | .ok start => e.faults = [] ∧ start.isVoid = e.isVoid := by
  have htag := tagFaults_eq e
  have hattributes := ofAttributes_spec e
  rw [opening, Element.faults, Element.contentFaults, Element.isVoid]
  cases hdest : Vocabulary.destination e with
  | error fault =>
    simp only [hdest] at htag
    simp [htag]
  | ok tag =>
    simp only [hdest] at htag
    cases hps : Properties.ofAttributes e.attributes with
    | error fault =>
      simp only [hps] at hattributes
      simp [htag, List.head?_append, hattributes, -String.reduceToList]
    | ok ps =>
      simp only [hps] at hattributes
      obtain ⟨hnone, -, hinserted⟩ := hattributes
      rw [← Directive.isSome_content e.directives, ← hinserted]
      simp only [htag, hnone, List.nil_append]
      by_cases hvoid : Vocabulary.isVoid e.tag || Vocabulary.isVoid tag
      · cases hcontent : ps.inserted.isSome <;> simp [hvoid, -String.reduceToList]
      · simp [hvoid, -String.reduceToList]

mutual

/-- Rendering a node ends at the first thing that is wrong with a visited node. -/
theorem plain_faults (comments : Bool) : ∀ node : Node,
    match plain comments node with
    | .error fault => ((visited node).flatMap Node.faults).head? = some fault
    | .ok _ => (visited node).flatMap Node.faults = []
  | .text _ _ => by simp [plain, visited, Node.faults]
  | .comment _ _ => by simp [plain, visited, Node.faults, -String.reduceToList]
  | .expression raw span => by
    by_cases hfilter : Expression.hasFilter raw <;> simp [plain, visited, Node.faults, hfilter]
  | .element head children => by
    have hopening := opening_spec head
    rw [plain_element, visited, List.flatMap_cons, Node.faults]
    cases hopen : opening head with
    | error fault =>
      simp only [hopen] at hopening
      simp [List.head?_append, hopening]
    | ok start =>
      simp only [hopen] at hopening
      obtain ⟨hnone, hvoid⟩ := hopening
      simp only [hnone, hvoid, List.nil_append]
      by_cases hhead : head.isVoid
      · simp [hhead]
      · have hchildren := plainAll_faults comments children
        simp only [hhead, Bool.false_eq_true, ↓reduceIte]
        cases hcontent : plainAll comments children with
        | error fault => simpa [hcontent] using hchildren
        | ok content => simpa [hcontent] using hchildren

theorem plainAll_faults (comments : Bool) : ∀ nodes : List Node,
    match plainAll comments nodes with
    | .error fault => ((visitedAll nodes).flatMap Node.faults).head? = some fault
    | .ok _ => (visitedAll nodes).flatMap Node.faults = []
  | [] => by simp [plainAll, visitedAll]
  | node :: nodes => by
    have hnode := plain_faults comments node
    have hnodes := plainAll_faults comments nodes
    rw [plainAll, visitedAll, List.flatMap_append]
    cases hfirst : plain comments node with
    | error fault =>
      simp only [hfirst] at hnode
      simp [List.head?_append, hnode]
    | ok first =>
      simp only [hfirst] at hnode
      simp only [hnode, List.nil_append]
      cases hothers : plainAll comments nodes with
      | error fault => simpa [hothers] using hnodes
      | ok others => simpa [hothers] using hnodes

end

end Rendering

/-! ### What can be translated -/

namespace Expression

/-- A bar stands between two blanks. -/
def HasFilter (e : Text) : Prop :=
  ∃ before a b after, e = before ++ a :: '|' :: b :: after ∧ isBlank a = true ∧ isBlank b = true

theorem startsFilter_iff (t : Text) :
    startsFilter t = true ↔
      ∃ a b after, t = a :: '|' :: b :: after ∧ isBlank a = true ∧ isBlank b = true := by
  unfold startsFilter
  split
  · simp only [Bool.and_eq_true, beq_iff_eq, List.cons.injEq]
    constructor
    · rintro ⟨⟨ha, rfl⟩, hb⟩
      exact ⟨_, _, _, ⟨rfl, rfl, rfl, rfl⟩, ha, hb⟩
    · rintro ⟨a, b, after, ⟨rfl, rfl, rfl, -⟩, ha, hb⟩
      exact ⟨⟨ha, rfl⟩, hb⟩
  · rename_i hshort
    simp only [Bool.false_eq_true, false_iff]
    rintro ⟨a, b, after, rfl, -, -⟩
    exact hshort a '|' b after rfl

theorem hasFilter_iff (e : Text) : hasFilter e = true ↔ HasFilter e := by
  induction e with
  | nil => simp [hasFilter_nil, HasFilter]
  | cons c t ih =>
    rw [hasFilter_cons, Bool.or_eq_true, startsFilter_iff, ih]
    constructor
    · rintro (⟨a, b, after, h, ha, hb⟩ | ⟨before, a, b, after, h, ha, hb⟩)
      · exact ⟨[], a, b, after, h, ha, hb⟩
      · exact ⟨c :: before, a, b, after, by rw [h]; rfl, ha, hb⟩
    · rintro ⟨before, a, b, after, h, ha, hb⟩
      cases before with
      | nil => exact .inl ⟨a, b, after, h, ha, hb⟩
      | cons d before => exact .inr ⟨before, a, b, after, (List.cons.inj h).2, ha, hb⟩

end Expression

namespace Directive

/-- A loop key is the item itself or a property of the item. -/
def IsKeyOf (item e : Text) : Prop :=
  e = item ∨ ∃ property, Expression.isIdentifier property = true ∧ e = item ++ '.' :: property

theorem keyName?_isSome_iff (item e : Text) : (keyName? item e).isSome = true ↔ IsKeyOf item e := by
  unfold keyName? IsKeyOf
  split
  · rename_i hitem
    simp [hitem]
  · rename_i hitem
    split
    · rename_i property hafter
      have he : e = item ++ '.' :: property := by
        simpa using Text.after?_eq_some_iff.1 hafter
      by_cases hid : Expression.isIdentifier property
      · simp only [hid, ↓reduceIte, Option.isSome_some, true_iff]
        exact .inr ⟨property, hid, he⟩
      · simp only [hid, Bool.false_eq_true, ↓reduceIte, Option.isSome_none, false_iff, not_or]
        refine ⟨hitem, ?_⟩
        rintro ⟨other, hother, rfl⟩
        simp only [List.append_cancel_left_eq, List.cons.injEq, true_and] at he
        exact hid (he ▸ hother)
    · rename_i hafter
      simp only [Option.isSome_none, Bool.false_eq_true, false_iff, not_or]
      refine ⟨hitem, ?_⟩
      rintro ⟨property, -, rfl⟩
      have : Text.after? (item ++ ".") (item ++ '.' :: property) = some property :=
        Text.after?_eq_some_iff.2 (by simp)
      rw [this] at hafter
      cases hafter

/-- Whether a directive of an element with this loop has a counterpart. -/
def Translatable (loop : Option (Except Fault Loop)) (d : Directive) : Prop :=
  match d.kind with
  | .bind =>
    d.modifiers = [] ∧ ∃ value, d.value = some value ∧
      (Text.trimStart value).head? ≠ some '\x7b' ∧ (Text.trimStart value).head? ≠ some '[' ∧
      ¬ Expression.HasFilter value
  | .on =>
    (∃ event, (d.name, event) ∈ Vocabulary.events) ∧
      (∀ m ∈ d.modifiers, m = ("stop" : Text) ∨ m = ("capture" : Text)) ∧ d.value.isSome = true
  | .text | .when | .elseWhen =>
    d.modifiers = [] ∧ ∃ value, d.value = some value ∧ ¬ Expression.HasFilter value
  | .otherwise => d.modifiers = []
  | .loop =>
    d.modifiers = [] ∧ d.key = ("v-for" : Text) ∧
      ∃ head, Loop.parse? (d.value.getD []) = some head ∧ ¬ Expression.HasFilter head.source
  | .key =>
    d.modifiers = [] ∧ ∃ value, d.value = some value ∧
      ∀ head, loop = some (.ok head) → IsKeyOf head.item (Text.trim value)
  | .html | .unsupported => False
  | .literal => True

theorem modifierFault?_eq_none_iff (d : Directive) :
    d.modifierFault? = none ↔ d.modifiers = [] := by
  simp [modifierFault?]

theorem valueFault?_eq_none_iff (d : Directive) :
    d.valueFault? = none ↔ d.value.isSome = true := by
  rw [valueFault?]
  cases d.value <;> simp

theorem filterFault?_eq_none_iff {d : Directive} {value : Text} (h : d.value = some value) :
    d.filterFault? = none ↔ ¬ Expression.HasFilter value := by
  simp [filterFault?, h, Expression.hasFilter_iff]

theorem objectFault?_eq_none_iff {d : Directive} {value : Text} (h : d.value = some value) :
    d.objectFault? = none ↔
      (Text.trimStart value).head? ≠ some '\x7b' ∧ (Text.trimStart value).head? ≠ some '[' := by
  simp [objectFault?, h, startsObject]

theorem eventFault?_eq_none_iff (d : Directive) :
    d.eventFault? = none ↔ ∃ event, (d.name, event) ∈ Vocabulary.events := by
  have hlookup : (Vocabulary.event? d.name).isSome = true ↔
      ∃ event, (d.name, event) ∈ Vocabulary.events := by
    rw [Vocabulary.event?, List.lookup_isSome_iff]
    constructor
    · rintro ⟨⟨name, event⟩, mem, hname⟩
      exact ⟨event, by rwa [eq_of_beq hname]⟩
    · rintro ⟨event, mem⟩
      exact ⟨(d.name, event), mem, beq_self_eq_true _⟩
  rw [eventFault?, ← hlookup]
  cases (Vocabulary.event? d.name).isSome <;> simp

theorem listeningFault?_eq_none_iff (d : Directive) :
    d.listeningFault? = none ↔
      ∀ m ∈ d.modifiers, m = ("stop" : Text) ∨ m = ("capture" : Text) := by
  simp only [listeningFault?, Option.map_eq_none_iff, List.find?_eq_none, isListening,
    Bool.not_eq_true', Bool.not_eq_false, Bool.or_eq_true, beq_iff_eq]

theorem refusals_eq_nil_iff (loop : Option (Except Fault Loop)) (d : Directive) :
    d.refusals loop = [] ↔ ∀ check ∈ d.checks loop, check = none := by
  simp [refusals, List.filterMap_eq_nil_iff]

/-- A directive other than a loop is refused exactly if it has no counterpart. -/
theorem refusals_eq_nil_iff_translatable (loop : Option (Except Fault Loop)) {d : Directive}
    (hloop : d.kind ≠ .loop) : d.refusals loop = [] ↔ d.Translatable loop := by
  have hexpression : (d.modifierFault? = none ∧ d.valueFault? = none ∧ d.filterFault? = none) ↔
      d.modifiers = [] ∧ ∃ value, d.value = some value ∧ ¬ Expression.HasFilter value := by
    rw [modifierFault?_eq_none_iff, valueFault?_eq_none_iff]
    cases hvalue : d.value with
    | none => simp
    | some value => simp [filterFault?_eq_none_iff hvalue]
  rw [refusals_eq_nil_iff]
  unfold checks Translatable
  cases hkind : d.kind with
  | bind =>
    simp only [List.mem_cons, List.not_mem_nil, or_false, forall_eq_or_imp, forall_eq,
      modifierFault?_eq_none_iff, valueFault?_eq_none_iff]
    cases hvalue : d.value with
    | none => simp
    | some value =>
      simp [objectFault?_eq_none_iff hvalue, filterFault?_eq_none_iff hvalue, and_assoc]
  | on =>
    simp only [List.mem_cons, List.not_mem_nil, or_false, forall_eq_or_imp, forall_eq,
      eventFault?_eq_none_iff, listeningFault?_eq_none_iff, handlerFault?]
    cases d.value <;> simp
  | text => simpa using hexpression
  | when => simpa using hexpression
  | elseWhen => simpa using hexpression
  | html => simp
  | otherwise => simp [modifierFault?_eq_none_iff]
  | loop => exact absurd hkind hloop
  | key =>
    simp only [List.mem_cons, List.not_mem_nil, or_false, forall_eq_or_imp, forall_eq,
      modifierFault?_eq_none_iff, valueFault?_eq_none_iff]
    cases hvalue : d.value with
    | none => simp
    | some value =>
      unfold keyFault?
      rcases loop with _ | fault | head
      · simp
      · simp
      · simp [hvalue, keyName?_isSome_iff]
  | unsupported => simp
  | literal => simp

/-- A loop is refused unless the element has a well-formed one. -/
theorem refusals_loop_eq_nil_iff (loop : Option (Except Fault Loop)) {d : Directive}
    (hkind : d.kind = .loop) :
    d.refusals loop = [] ↔ d.modifiers = [] ∧ ∃ head, loop = some (.ok head) := by
  rw [refusals_eq_nil_iff]
  unfold checks loopFault?
  simp only [hkind, List.mem_cons, List.not_mem_nil, or_false, forall_eq_or_imp, forall_eq,
    modifierFault?_eq_none_iff]
  match loop with
  | none => simp
  | some (.error fault) => simp
  | some (.ok head) => simp

/-- The attribute `v-for` is a loop. -/
theorem ofAttributeIn_loop (hasLoop : Bool) {a : Attribute} (h : a.key = ("v-for" : Text)) :
    ofAttributeIn hasLoop a = ⟨a.key, .loop, "for", [], a.value, a.span⟩ := by
  obtain ⟨key, value, span⟩ := a
  subst h
  rfl

@[simp] theorem ofAttributeIn_key (hasLoop : Bool) (a : Attribute) :
    (ofAttributeIn hasLoop a).key = a.key := by
  unfold ofAttributeIn
  simp only
  split <;> rfl

end Directive

theorem Rendering.loop_eq_ok_iff (head : Text) (span : Span) (l : Loop) :
    Rendering.loop head span = .ok l ↔
      Loop.parse? head = some l ∧ ¬ Expression.HasFilter l.source := by
  rw [Rendering.loop]
  cases Loop.parse? head with
  | none => simp
  | some found =>
    by_cases hfilter : Expression.hasFilter found.source
    · simp only [rejectFilter, hfilter, ↓reduceIte, Except.map, reduceCtorEq, false_iff, not_and,
        not_not, Option.some.injEq]
      rintro rfl
      exact (Expression.hasFilter_iff found.source).1 hfilter
    · simp only [rejectFilter, hfilter, Bool.false_eq_true, ↓reduceIte, Except.map, Except.ok.injEq,
        Option.some.injEq, iff_self_and]
      rintro rfl
      exact mt (Expression.hasFilter_iff found.source).2 hfilter

namespace Element

/-- Whether an element has a counterpart, apart from its children. -/
structure Translatable (e : Element) : Prop where
  tag : e.tag ∈ Vocabulary.nativeTags ∨ e.tag ∈ Vocabulary.viewSources ∨
    e.tag ∈ (["span", "template", "img", "iframe"] : List Text)
  directives : ∀ d ∈ e.directives, d.Translatable e.loop?
  names : Property.AllFit [] (e.directives.flatMap (·.sets e.loop?))
  content : e.isVoid = true → ∀ d ∈ e.directives, d.kind ≠ .text

theorem tagFaults_eq_nil_iff (e : Element) :
    e.tagFaults = [] ↔ e.tag ∈ Vocabulary.nativeTags ∨ e.tag ∈ Vocabulary.viewSources ∨
      e.tag ∈ (["span", "template", "img", "iframe"] : List Text) := by
  simp only [tagFaults, Vocabulary.tagRule?, List.contains_iff_mem, List.mem_cons,
    List.not_mem_nil, or_false]
  split_ifs <;> simp_all [-String.reduceToList]

/-- The loop of an element is that of an attribute `v-for`. -/
theorem exists_of_loop? {e : Element} {loop : Except Fault Loop} (h : e.loop? = some loop) :
    ∃ a ∈ e.attributes, a.key = ("v-for" : Text) ∧
      loop = Rendering.loop (a.value.getD []) a.span := by
  obtain ⟨a, hfind, rfl⟩ := Option.map_eq_some_iff.1 h
  exact ⟨a, List.mem_of_find?_eq_some hfind, by simpa using List.find?_some hfind, rfl⟩

/-- Two directives that set the same name set a class or a style. -/
theorem merges_of_ne {e : Element}
    (h : Property.AllFit [] (e.directives.flatMap (·.sets e.loop?))) {c d : Directive}
    (hc : c ∈ e.directives) (hd : d ∈ e.directives) (hne : c ≠ d) {p q : Property}
    (hp : p ∈ c.sets e.loop?) (hq : q ∈ d.sets e.loop?) (hname : p.name = q.name) :
    q.name = ("class" : Text) ∨ q.name = ("style" : Text) := by
  obtain ⟨before, after, hsplit⟩ := List.append_of_mem hc
  rw [hsplit] at hd h
  rw [List.flatMap_append, List.flatMap_cons, Property.allFit_append, Property.allFit_append] at h
  cases List.mem_append.1 hd with
  | inl first =>
    rw [← hname]
    have mem : q ∈ before.flatMap (·.sets e.loop?) := List.mem_flatMap.2 ⟨d, first, hq⟩
    exact h.2.1.merges (List.mem_append_right _ mem) hp hname.symm
  | inr second =>
    cases List.mem_cons.1 second with
    | inl same => exact absurd same.symm hne
    | inr later =>
      have mem : q ∈ after.flatMap (·.sets e.loop?) := List.mem_flatMap.2 ⟨d, later, hq⟩
      exact h.2.2.merges (List.mem_append_right _ hp) mem hname

/-- If no names clash, the directives of an element are refused exactly if one has no
counterpart. -/
theorem refusals_eq_nil_iff {e : Element}
    (h : Property.AllFit [] (e.directives.flatMap (·.sets e.loop?))) :
    (∀ d ∈ e.directives, d.refusals e.loop? = []) ↔ ∀ d ∈ e.directives, d.Translatable e.loop? := by
  constructor
  · intro hnone d hd
    by_cases hkind : d.kind = .loop
    · -- any other loop would set `wx:for` a second time, so this is the attribute `v-for` itself
      obtain ⟨hmodifiers, head, hloop⟩ :=
        (Directive.refusals_loop_eq_nil_iff e.loop? hkind).1 (hnone d hd)
      obtain ⟨a, mem, hkey, hhead⟩ := exists_of_loop? hloop
      have hself := Directive.ofAttributeIn_loop e.loop?.isSome hkey
      have hsame : d = Directive.ofAttributeIn e.loop?.isSome a := by
        by_contra hne
        have hsets : ∀ c : Directive, c.kind = .loop →
            Directive.binding "wx:for" head.source ∈ c.sets e.loop? := by
          intro c hc
          simp [Directive.sets, hc, hloop]
        have := merges_of_ne h hd (List.mem_map_of_mem mem) hne (hsets d hkind)
          (hsets _ (by rw [hself])) rfl
        simp [Directive.binding] at this
      obtain ⟨hparse, hfilter⟩ := (Rendering.loop_eq_ok_iff _ _ _).1 hhead.symm
      rw [hsame, hself]
      exact ⟨rfl, hkey, head, hparse, hfilter⟩
    · exact (Directive.refusals_eq_nil_iff_translatable e.loop? hkind).1 (hnone d hd)
  · intro htranslatable d hd
    by_cases hkind : d.kind = .loop
    · have hd' := htranslatable d hd
      rw [Directive.Translatable, hkind] at hd'
      obtain ⟨hmodifiers, hkey, -⟩ := hd'
      refine (Directive.refusals_loop_eq_nil_iff e.loop? hkind).2 ⟨hmodifiers, ?_⟩
      obtain ⟨b, hb, rfl⟩ := List.mem_map.1 hd
      rw [Directive.ofAttributeIn_key] at hkey
      have hsome : e.loop?.isSome = true := by
        rw [loop?, Directive.loop?, Option.isSome_map, Attribute.find?, List.find?_isSome]
        exact ⟨b, hb, by simp [hkey]⟩
      obtain ⟨loop, hloop⟩ := Option.isSome_iff_exists.1 hsome
      obtain ⟨a, mem, hakey, hhead⟩ := exists_of_loop? hloop
      have ha := htranslatable _ (List.mem_map_of_mem mem)
      rw [Directive.ofAttributeIn_loop _ hakey] at ha
      obtain ⟨-, -, head, hparse, hfilter⟩ := ha
      refine ⟨head, ?_⟩
      rw [hloop, hhead, (Rendering.loop_eq_ok_iff _ _ _).2 ⟨hparse, hfilter⟩]
    · exact (Directive.refusals_eq_nil_iff_translatable e.loop? hkind).2 (htranslatable d hd)

/-- On an element whose tag has a counterpart, content is wrong exactly in a void one. -/
theorem contentFaults_eq_nil_iff {e : Element} (htag : e.tagFaults = []) :
    e.contentFaults = [] ↔ (e.isVoid = true → ∀ d ∈ e.directives, d.kind ≠ .text) := by
  have hdest := Rendering.tagFaults_eq e
  rw [contentFaults]
  cases h : Vocabulary.destination e with
  | error fault => simp [h, htag] at hdest
  | ok tag => simp [-String.reduceToList]

theorem faults_eq_nil_iff (e : Element) : e.faults = [] ↔ e.Translatable := by
  rw [faults, List.append_eq_nil_iff, List.append_eq_nil_iff, Directive.allFaults_eq_nil_iff]
  constructor
  · rintro ⟨⟨htag, hrefusals, hnames⟩, hcontent⟩
    exact ⟨(tagFaults_eq_nil_iff e).1 htag, (refusals_eq_nil_iff hnames).1 hrefusals, hnames,
      (contentFaults_eq_nil_iff htag).1 hcontent⟩
  · rintro ⟨htag, hdirectives, hnames, hcontent⟩
    rw [← tagFaults_eq_nil_iff] at htag
    exact ⟨⟨htag, (refusals_eq_nil_iff hnames).2 hdirectives, hnames⟩,
      (contentFaults_eq_nil_iff htag).2 hcontent⟩

end Element

/-- Whether a node has a counterpart, apart from its children. -/
def Node.Translatable : Node → Prop
  | .element head _ => head.Translatable
  | .expression raw _ => ¬ Expression.HasFilter raw
  | .text _ _ => True
  | .comment _ _ => True

theorem Node.faults_eq_nil_iff (node : Node) : node.faults = [] ↔ node.Translatable := by
  cases node with
  | element head children => exact head.faults_eq_nil_iff
  | expression raw span => simp [Node.faults, Node.Translatable, Expression.hasFilter_iff]
  | text content span => simp [Node.faults, Node.Translatable]
  | comment content span => simp [Node.faults, Node.Translatable]

namespace Rendering

theorem ofNode_error_iff (comments : Bool) (root : Node) (fault : Fault) :
    ofNode comments root = .error fault ↔
      ((visited root).flatMap Node.faults).head? = some fault := by
  have hplain := plain_faults comments root
  rw [ofNode_eq_plain]
  cases h : plain comments root with
  | ok text =>
    simp only [h] at hplain
    simp [hplain]
  | error found =>
    simp only [h] at hplain
    rw [hplain, Except.error.injEq, Option.some.injEq]

theorem ofNode_ok_iff (comments : Bool) (root : Node) :
    (∃ text, ofNode comments root = .ok text) ↔ (visited root).flatMap Node.faults = [] := by
  have herror := ofNode_error_iff comments root
  rw [← List.head?_eq_none_iff]
  cases h : ofNode comments root with
  | ok text =>
    simp only [Except.ok.injEq, exists_eq', true_iff]
    rw [Option.eq_none_iff_forall_ne_some]
    intro fault hfault
    rw [← herror, h] at hfault
    cases hfault
  | error fault =>
    rw [(herror fault).1 h]
    simp

/-- A template is rendered exactly if all its visited nodes have counterparts; otherwise the first
of them in document order that has none says what is wrong with it. -/
theorem ofNode_ok_iff_and_first_fault (comments : Bool) (root : Node) :
    ((∃ text, ofNode comments root = .ok text) ↔ ∀ node ∈ visited root, node.Translatable) ∧
      ∀ fault, ofNode comments root = .error fault ↔
        ∃ before node after, visited root = before ++ node :: after ∧
          (∀ earlier ∈ before, earlier.Translatable) ∧ node.faults.head? = some fault := by
  constructor
  · rw [ofNode_ok_iff, List.flatMap_eq_nil_iff]
    simp only [Node.faults_eq_nil_iff]
  · intro fault
    rw [ofNode_error_iff, List.head?_flatMap, List.findSome?_eq_some_iff]
    simp only [List.head?_eq_none_iff, Node.faults_eq_nil_iff]
    constructor
    · rintro ⟨before, node, after, hsplit, hfault, hbefore⟩
      exact ⟨before, node, after, hsplit, hbefore, hfault⟩
    · rintro ⟨before, node, after, hsplit, hbefore, hfault⟩
      exact ⟨before, node, after, hsplit, hfault, hbefore⟩

end Rendering

end Wxml
