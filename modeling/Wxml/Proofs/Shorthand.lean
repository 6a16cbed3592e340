import Mathlib.Data.List.Nodup
import Wxml.Proofs.Placement
import Wxml.Proofs.Settled
import Wxml.Proofs.Translatable

/-!
# Short and long forms of directives

A binding is written `:name` or `v-bind:name`, and an event `@event` or `v-on:event`.
`Node.longhand` is a tree with all short forms written out.  It is rendered as the tree itself is
(`Rendering.plain_longhand`); a fault differs at most in the key it names (`Fault.longhand`).

Keys are looked at in three places: where a key is taken apart (`Directive.classify_longKey`), where
an attribute is looked up by its key (`Attribute.find?_longhand`), and where a frame looks for its
source (`Vocabulary.frameTag_longhand`).
-/

namespace Wxml

open Rendering (Fault)

/-! ### Writing short forms out -/

namespace Directive

/-- A key with the mark of its short form written out. -/
def longKey : Text → Text
  | ':' :: argument => "v-bind:" ++ argument
  | '@' :: argument => "v-on:" ++ argument
  | key => key

/-- The short and the long form of one key. -/
def AreForms (short long : Text) : Prop :=
  ∃ argument, short = ':' :: argument ∧ long = "v-bind:" ++ argument ∨
    short = '@' :: argument ∧ long = "v-on:" ++ argument

/-- A key is its own long form, or it is short. -/
theorem longKey_cases (key : Text) : longKey key = key ∨ AreForms key (longKey key) := by
  unfold longKey
  split
  · rename_i argument
    exact .inr ⟨argument, .inl ⟨rfl, rfl⟩⟩
  · rename_i argument
    exact .inr ⟨argument, .inr ⟨rfl, rfl⟩⟩
  · exact .inl rfl

theorem areForms_iff {short long : Text} :
    AreForms short long ↔ longKey short = long ∧ short ≠ long := by
  constructor
  · rintro ⟨argument, ⟨rfl, rfl⟩ | ⟨rfl, rfl⟩⟩
    · exact ⟨rfl, by simp⟩
    · exact ⟨rfl, by simp⟩
  · rintro ⟨rfl, hne⟩
    exact (longKey_cases short).resolve_left (Ne.symm hne)

instance (short long : Text) : Decidable (AreForms short long) :=
  decidable_of_iff _ areForms_iff.symm

/-- Two short forms with one long form are the same. -/
theorem AreForms.left_unique {short short' long : Text} (h : AreForms short long)
    (h' : AreForms short' long) : short = short' := by
  obtain ⟨r, ⟨rfl, rfl⟩ | ⟨rfl, rfl⟩⟩ := h <;> obtain ⟨r', ⟨rfl, h'⟩ | ⟨rfl, h'⟩⟩ := h' <;>
    simp_all

/-- Both forms of a key are taken apart alike. -/
theorem classify_longKey (key : Text) : classify (longKey key) = classify key := by
  obtain hsame | ⟨argument, ⟨rfl, -⟩ | ⟨rfl, -⟩⟩ := longKey_cases key
  · rw [hsame]
  · rfl
  · rfl

/-- A key that is no binding and no event is nobody's long form but its own. -/
theorem longKey_eq_iff {name : Text} (hbind : (classify name).1 ≠ .bind)
    (hon : (classify name).1 ≠ .on) (key : Text) : longKey key = name ↔ key = name := by
  obtain hsame | ⟨argument, ⟨rfl, -⟩ | ⟨rfl, -⟩⟩ := longKey_cases key
  · rw [hsame]
  · constructor
    · rintro rfl
      exact absurd (by rw [classify_longKey]; rfl) hbind
    · rintro rfl
      exact absurd rfl hbind
  · constructor
    · rintro rfl
      exact absurd (by rw [classify_longKey]; rfl) hon
    · rintro rfl
      exact absurd rfl hon

/-- A binding in its long form was written in one of its two forms. -/
theorem longKey_eq_bind_iff (argument key : Text) :
    longKey key = "v-bind:" ++ argument ↔ key = ':' :: argument ∨ key = "v-bind:" ++ argument := by
  obtain hsame | ⟨other, ⟨rfl, hlong⟩ | ⟨rfl, hlong⟩⟩ := longKey_cases key
  · rw [hsame]
    refine ⟨.inr, fun h => h.resolve_left ?_⟩
    rintro rfl
    cases hsame
  · rw [hlong]
    simp
  · rw [hlong]
    simp

theorem longKey_ne_short (argument key : Text) : longKey key ≠ ':' :: argument := by
  obtain hsame | ⟨other, ⟨rfl, hlong⟩ | ⟨rfl, hlong⟩⟩ := longKey_cases key
  · intro h
    rw [hsame] at h
    subst h
    cases hsame
  · rw [hlong]
    simp
  · rw [hlong]
    simp

theorem longKey_of_isLiteral {key : Text} (h : (classify key).1 = .literal) :
    longKey key = key := by
  rw [longKey_eq_iff] <;> simp [h]

/-- A directive with the short form of its key written out. -/
def longhand (d : Directive) : Directive := { d with key := longKey d.key }

@[simp] theorem longhand_kind (d : Directive) : d.longhand.kind = d.kind := rfl

@[simp] theorem longhand_name (d : Directive) : d.longhand.name = d.name := rfl

@[simp] theorem longhand_modifiers (d : Directive) : d.longhand.modifiers = d.modifiers := rfl

@[simp] theorem longhand_value (d : Directive) : d.longhand.value = d.value := rfl

@[simp] theorem longhand_span (d : Directive) : d.longhand.span = d.span := rfl

end Directive

open Directive (longKey longKey_eq_iff)

def Attribute.longhand (a : Attribute) : Attribute := { a with key := longKey a.key }

def Element.longhand (e : Element) : Element :=
  { e with attributes := e.attributes.map Attribute.longhand }

@[simp] theorem Element.longhand_tag (e : Element) : e.longhand.tag = e.tag := rfl

@[simp] theorem Element.longhand_tagSpan (e : Element) : e.longhand.tagSpan = e.tagSpan := rfl

namespace Node

mutual

/-- A tree with all short forms in it written out, each where it stands. -/
def longhand : Node → Node
  | .element head children => .element head.longhand (longhandAll children)
  | .expression raw span => .expression raw span
  | .text content span => .text content span
  | .comment content span => .comment content span

def longhandAll : List Node → List Node
  | [] => []
  | node :: nodes => node.longhand :: longhandAll nodes

end

mutual

theorem subtree_longhand : ∀ node : Node, node.longhand.subtree = node.subtree.map longhand
  | .element head children => by
    rw [longhand, subtree, subtree, List.map_cons, longhand, subtrees_longhand children]
  | .expression _ _ => rfl
  | .text _ _ => rfl
  | .comment _ _ => rfl

theorem subtrees_longhand : ∀ nodes : List Node,
    subtrees (longhandAll nodes) = (subtrees nodes).map longhand
  | [] => rfl
  | node :: nodes => by
    rw [longhandAll, subtrees, subtrees, List.map_append, subtree_longhand node,
      subtrees_longhand nodes]

end

end Node

/-- A fault with the key it names written out.  A missing value is reported with the key in place
of an expression. -/
def Rendering.Fault.longhand : Fault → Fault
  | .modifier key dotted span => .modifier (longKey key) dotted span
  | .directive key reason span => .directive (longKey key) reason span
  | .expression key .missingValue span => .expression (longKey key) .missingValue span
  | .expression key .missingHandler span => .expression (longKey key) .missingHandler span
  | fault => fault

namespace Rendering.Fault

theorem code_longhand (fault : Fault) : fault.longhand.code = fault.code := by
  unfold longhand
  split <;> rfl

theorem span_longhand (fault : Fault) : fault.longhand.span = fault.span := by
  unfold longhand
  split <;> rfl

end Rendering.Fault

/-! ### Taking keys apart -/

namespace Directive

theorem ofAttribute_longhand (a : Attribute) :
    ofAttribute a.longhand = (ofAttribute a).longhand := by
  unfold ofAttribute Attribute.longhand longhand
  simp only [classify_longKey]
  cases hclass : classify a.key with
  | mk kind rest =>
    by_cases hkind : kind = .literal
    · subst hkind
      rw [longKey_of_isLiteral (by rw [hclass])]
    · simp [hkind]

theorem ofAttributeIn_longhand (hasLoop : Bool) (a : Attribute) :
    ofAttributeIn hasLoop a.longhand = (ofAttributeIn hasLoop a).longhand := by
  have hif : ∀ (isKey : Bool) (d : Directive),
      (if isKey then { d.longhand with kind := .key } else d.longhand) =
        (if isKey then { d with kind := .key } else d).longhand := by
    intro isKey d
    cases isKey <;> rfl
  unfold ofAttributeIn
  rw [ofAttribute_longhand]
  exact hif _ _

/-- The key of an attribute that is no directive has one form. -/
theorem longKey_of_literal {hasLoop : Bool} {a : Attribute}
    (h : (ofAttributeIn hasLoop a).kind = .literal) : longKey a.key = a.key := by
  apply longKey_of_isLiteral
  apply isLiteral_of_kind
  unfold ofAttributeIn at h
  simp only at h
  split at h
  · cases h
  · exact h

/-! ### The rule of a directive -/

section Rule

variable {loop : Option (Except Fault Loop)} {d : Directive}

theorem checks_longhand (hloop : ∀ fault, loop = some (.error fault) → fault.longhand = fault) :
    d.longhand.checks loop = (d.checks loop).map (Option.map Fault.longhand) := by
  have hmodifier : d.longhand.modifierFault? = d.modifierFault?.map Fault.longhand := by
    rw [modifierFault?, modifierFault?, Option.map_map]
    rfl
  have hvalue : d.longhand.valueFault? = d.valueFault?.map Fault.longhand := by
    rw [valueFault?, valueFault?, longhand_value]
    cases d.value <;> rfl
  have hfilter : d.longhand.filterFault? = d.filterFault?.map Fault.longhand := by
    rw [filterFault?, filterFault?, longhand_value, Option.map_bind]
    congr 1
    funext value
    dsimp
    split <;> rfl
  have hobject : d.longhand.objectFault? = d.objectFault?.map Fault.longhand := by
    rw [objectFault?, objectFault?, longhand_value, Option.map_bind]
    congr 1
    funext value
    dsimp
    split <;> rfl
  have hevent : d.longhand.eventFault? = d.eventFault?.map Fault.longhand := by
    rw [eventFault?, eventFault?, longhand_name]
    split <;> rfl
  have hlistening : d.longhand.listeningFault? = d.listeningFault?.map Fault.longhand := by
    rw [listeningFault?, listeningFault?, Option.map_map]
    rfl
  have hhandler : d.longhand.handlerFault? = d.handlerFault?.map Fault.longhand := by
    rw [handlerFault?, handlerFault?, longhand_value]
    cases d.value <;> rfl
  have hmalformed : d.longhand.loopFault? loop = (d.loopFault? loop).map Fault.longhand := by
    rcases loop with _ | fault | head
    · rfl
    · exact congrArg some (hloop fault rfl).symm
    · rfl
  have hkey : d.longhand.keyFault? loop = (d.keyFault? loop).map Fault.longhand := by
    rcases loop with _ | fault | head
    · rfl
    · rfl
    · rw [keyFault?, keyFault?, longhand_value]
      split <;> rfl
  unfold checks
  rw [longhand_kind]
  cases d.kind <;>
    simp only [List.map_cons, List.map_nil, hmodifier, hvalue, hfilter, hobject, hevent, hlistening,
      hhandler, hmalformed, hkey] <;> rfl

theorem refusals_longhand (hloop : ∀ fault, loop = some (.error fault) → fault.longhand = fault) :
    d.longhand.refusals loop = (d.refusals loop).map Fault.longhand := by
  rw [refusals, refusals, checks_longhand hloop, List.filterMap_map, List.map_filterMap]
  rfl

theorem sets_longhand (hkey : d.kind = .literal → longKey d.key = d.key) :
    d.longhand.sets loop = d.sets loop := by
  unfold sets longhand
  cases hkind : d.kind <;> simp_all

theorem insertAll_longhand (qs : List Property) (ps : Properties) :
    Properties.insertAll d.longhand qs ps =
      (Properties.insertAll d qs ps).mapError Fault.longhand := by
  induction qs generalizing ps with
  | nil => rfl
  | cons q qs ih =>
    unfold Properties.insertAll Properties.insert
    cases Property.add? q ps.list with
    | none => rfl
    | some list => exact ih _

theorem convert_longhand (hloop : ∀ fault, loop = some (.error fault) → fault.longhand = fault)
    (hkey : d.kind = .literal → longKey d.key = d.key) (ps : Properties) :
    d.longhand.convert loop ps = (d.convert loop ps).mapError Fault.longhand := by
  rw [convert_eq, convert_eq, refusals_longhand hloop, sets_longhand hkey, List.head?_map]
  cases (d.refusals loop).head? with
  | some fault => rfl
  | none => exact insertAll_longhand _ _

end Rule

end Directive

/-! ### Looking attributes up -/

theorem Attribute.find?_longhand {name : Text} (hbind : (Directive.classify name).1 ≠ .bind)
    (hon : (Directive.classify name).1 ≠ .on) (as : List Attribute) :
    find? name (as.map longhand) = (find? name as).map longhand := by
  have hsame : ((fun a : Attribute => a.key == name) ∘ longhand) = fun a => a.key == name := by
    funext a
    have := longKey_eq_iff hbind hon a.key
    rw [Bool.eq_iff_iff]
    simpa [longhand] using this
  rw [find?, find?, List.find?_map, hsame]

theorem Directive.loop?_longhand (as : List Attribute) :
    loop? (as.map Attribute.longhand) = loop? as := by
  rw [loop?, loop?, Attribute.find?_longhand (by decide) (by decide), Option.map_map]
  rfl

/-- The fault of a malformed loop names no key. -/
theorem Directive.longhand_of_loop? {as : List Attribute} {fault : Fault}
    (h : loop? as = some (.error fault)) : fault.longhand = fault := by
  obtain ⟨a, -, hloop⟩ := Option.map_eq_some_iff.1 h
  rw [Rendering.loop] at hloop
  split at hloop
  · cases hloop
    rfl
  · rw [Rendering.rejectFilter] at hloop
    split at hloop
    · cases hloop
      rfl
    · cases hloop

theorem Properties.addAll_longhand {loop : Option (Except Fault Loop)}
    (hloop : ∀ fault, loop = some (.error fault) → fault.longhand = fault) (as : List Attribute)
    (ps : Properties) :
    addAll loop (as.map Attribute.longhand) ps = (addAll loop as ps).mapError Fault.longhand := by
  induction as generalizing ps with
  | nil => rfl
  | cons a as ih =>
    have hkey : (Directive.ofAttributeIn loop.isSome a).kind = .literal →
        longKey (Directive.ofAttributeIn loop.isSome a).key =
          (Directive.ofAttributeIn loop.isSome a).key := by
      rw [Directive.ofAttributeIn_key]
      exact Directive.longKey_of_literal
    rw [List.map_cons, addAll, addAll, Directive.ofAttributeIn_longhand,
      Directive.convert_longhand hloop hkey]
    cases (Directive.ofAttributeIn loop.isSome a).convert loop ps with
    | error fault => rfl
    | ok next => exact ih next

theorem Properties.ofAttributes_longhand (as : List Attribute) :
    ofAttributes (as.map Attribute.longhand) = (ofAttributes as).mapError Fault.longhand := by
  rw [ofAttributes, ofAttributes, Directive.loop?_longhand]
  exact addAll_longhand (fun fault h => Directive.longhand_of_loop? h) as empty

/-! ### Frames -/

namespace Element

theorem hasAttribute_iff {e : Element} {key : Text} :
    e.hasAttribute key = true ↔ ∃ a ∈ e.attributes, a.key = key := by
  simp [hasAttribute, Attribute.find?, List.find?_isSome]

/-- The long form of a key is there exactly if the key is there in either form. -/
theorem hasAttribute_longhand {e : Element} {key : Text} :
    e.longhand.hasAttribute key = true ↔ ∃ a ∈ e.attributes, longKey a.key = key := by
  simp [hasAttribute_iff, longhand, Attribute.longhand]

end Element

/-- A frame has its source in whichever form that is written. -/
theorem Vocabulary.frameTag_longhand (e : Element) : frameTag e.longhand = frameTag e := by
  have hsource : (e.longhand.hasAttribute "src" || e.longhand.hasAttribute ":src" ||
      e.longhand.hasAttribute "v-bind:src") =
      (e.hasAttribute "src" || e.hasAttribute ":src" || e.hasAttribute "v-bind:src") := by
    have hplain := @longKey_eq_iff "src" (by decide) (by decide)
    have hshort : ∀ key, longKey key ≠ (":src" : Text) := Directive.longKey_ne_short "src"
    have hlong : ∀ key, longKey key = ("v-bind:src" : Text) ↔
        key = (":src" : Text) ∨ key = ("v-bind:src" : Text) := Directive.longKey_eq_bind_iff "src"
    rw [Bool.eq_iff_iff]
    simp only [Bool.or_eq_true, Element.hasAttribute_longhand, hplain, hshort, hlong, and_false,
      exists_false, or_false, and_or_left, exists_or]
    simp only [Element.hasAttribute_iff, or_assoc]
  rw [frameTag, frameTag, hsource]

theorem Vocabulary.destination_longhand (e : Element) :
    destination e.longhand = (destination e).mapError Fault.longhand := by
  rw [destination, destination, frameTag_longhand, Element.longhand_tag, Element.longhand_tagSpan]
  cases tagRule? e.tag with
  | none => rfl
  | some rule => cases rule <;> rfl

/-! ### Rendering -/

namespace Rendering

theorem textSpan_longhand (e : Element) : textSpan e.longhand = textSpan e := by
  rw [textSpan, textSpan, Element.longhand,
    Attribute.find?_longhand (by decide) (by decide)]
  cases Attribute.find? "v-text" e.attributes <;> rfl

theorem opening_longhand (e : Element) :
    opening e.longhand = (opening e).mapError Fault.longhand := by
  have hattributes : Properties.ofAttributes e.longhand.attributes =
      (Properties.ofAttributes e.attributes).mapError Fault.longhand :=
    Properties.ofAttributes_longhand e.attributes
  rw [opening, opening, Vocabulary.destination_longhand, hattributes, textSpan_longhand,
    Element.longhand_tag]
  cases Vocabulary.destination e with
  | error fault => rfl
  | ok tag =>
    cases Properties.ofAttributes e.attributes with
    | error fault => rfl
    | ok ps =>
      simp only [Except.mapError]
      cases Vocabulary.isVoid e.tag || Vocabulary.isVoid tag with
      | false => rfl
      | true => cases ps.inserted.isSome <;> rfl

mutual

/-- A tree in its long form is rendered as it is; a fault names the long form of a key. -/
theorem plain_longhand (comments : Bool) : ∀ node : Node,
    plain comments node.longhand = (plain comments node).mapError Fault.longhand
  | .text _ _ => rfl
  | .comment _ _ => rfl
  | .expression raw span => by
    rw [Node.longhand, plain]
    split <;> rfl
  | .element head children => by
    rw [Node.longhand, plain_element, plain_element, opening_longhand]
    cases opening head with
    | error fault => rfl
    | ok start =>
      simp only [Except.mapError]
      rw [plainAll_longhand comments children]
      cases start.isVoid with
      | true => rfl
      | false => cases plainAll comments children <;> rfl

theorem plainAll_longhand (comments : Bool) : ∀ nodes : List Node,
    plainAll comments (Node.longhandAll nodes) = (plainAll comments nodes).mapError Fault.longhand
  | [] => rfl
  | node :: nodes => by
    rw [Node.longhandAll, plainAll, plainAll, plain_longhand comments node]
    cases plain comments node with
    | error fault => rfl
    | ok first =>
      rw [plainAll_longhand comments nodes]
      cases plainAll comments nodes <;> rfl

end

/-- Two renderings agree: they are the same text, or they fail with the same kind of fault at the
same place. -/
def Agree : Except Fault Text → Except Fault Text → Prop
  | .ok text, .ok text' => text = text'
  | .error fault, .error fault' => fault.code = fault'.code ∧ fault.span = fault'.span
  | _, _ => False

theorem agree_mapError (result : Except Fault Text) :
    Agree result (result.mapError Fault.longhand) := by
  cases result with
  | ok text => rfl
  | error fault => exact ⟨fault.code_longhand.symm, fault.span_longhand.symm⟩

end Rendering

/-! ### Trees without both forms of a key -/

namespace Element

/-- No two attributes have one key. -/
def DistinctKeys (e : Element) : Prop := (e.attributes.map Attribute.key).Nodup

/-- No two attributes are the short and the long form of one key. -/
def OneForm (e : Element) : Prop :=
  ∀ a ∈ e.attributes, ∀ b ∈ e.attributes, ¬ Directive.AreForms a.key b.key

instance : DecidablePred DistinctKeys := fun e =>
  inferInstanceAs (Decidable (e.attributes.map Attribute.key).Nodup)

instance : DecidablePred OneForm := fun e =>
  inferInstanceAs (Decidable (∀ a ∈ e.attributes, ∀ b ∈ e.attributes, _))

/-- Different keys stay different unless they are two forms of one. -/
theorem longKey_inj_on {e : Element} (h : e.OneForm) {a b : Attribute} (ha : a ∈ e.attributes)
    (hb : b ∈ e.attributes) (hlong : longKey a.key = longKey b.key) : a.key = b.key := by
  obtain hsame | hforms := Directive.longKey_cases a.key
  · obtain hsame' | hforms' := Directive.longKey_cases b.key
    · rw [← hsame, hlong, hsame']
    · rw [← hlong, hsame] at hforms'
      exact absurd hforms' (h b hb a ha)
  · obtain hsame' | hforms' := Directive.longKey_cases b.key
    · rw [hlong, hsame'] at hforms
      exact absurd hforms (h a ha b hb)
    · rw [← hlong] at hforms'
      exact hforms.left_unique hforms'

theorem distinctKeys_longhand {e : Element} (hkeys : e.DistinctKeys) (hforms : e.OneForm) :
    e.longhand.DistinctKeys := by
  unfold DistinctKeys longhand
  rw [List.map_map]
  refine hkeys.of_map.map_on fun a ha b hb hlong => ?_
  exact List.inj_on_of_nodup_map hkeys ha hb (longKey_inj_on hforms ha hb hlong)

end Element

/-- All elements of a tree are so. -/
def Node.ForElements (P : Element → Prop) (root : Node) : Prop :=
  ∀ head children, .element head children ∈ root.subtree → P head

theorem Node.forElements_element {P : Element → Prop} {head : Element} {children : List Node} :
    (Node.element head children).ForElements P ↔
      P head ∧ ∀ child ∈ children, child.ForElements P := by
  simp only [ForElements, subtree, List.mem_cons, mem_subtrees]
  constructor
  · intro h
    exact ⟨h head children (.inl rfl), fun child hchild first nodes hmem =>
      h first nodes (.inr ⟨child, hchild, hmem⟩)⟩
  · rintro ⟨hhead, hchildren⟩ first nodes (hsame | ⟨child, hchild, hmem⟩)
    · cases hsame
      exact hhead
    · exact hchildren child hchild first nodes hmem

/-- Short and long forms mean the same.  A tree in which no element has both forms of a key can be
written with long forms only; its keys stay distinct, and it is rendered as before, or fails for the
same kind of reason at the same place. -/
theorem Rendering.ofNode_longhand (comments : Bool) {root : Node}
    (hkeys : root.ForElements Element.DistinctKeys) (hforms : root.ForElements Element.OneForm) :
    root.longhand.ForElements Element.DistinctKeys ∧
      Agree (ofNode comments root) (ofNode comments root.longhand) := by
  constructor
  · intro head children hmem
    rw [Node.subtree_longhand, List.mem_map] at hmem
    obtain ⟨node, hnode, hlong⟩ := hmem
    cases node with
    | element first nodes =>
      cases hlong
      exact Element.distinctKeys_longhand (hkeys first nodes hnode) (hforms first nodes hnode)
    | expression | text | comment => cases hlong
  · rw [ofNode_eq_plain, ofNode_eq_plain, plain_longhand]
    exact agree_mapError _

/-- A loop whose key stands before it, and a frame with a bound source, an event and a class in two
parts. -/
def Node.shortSample : Node :=
  .element
    ⟨"div", [⟨":key", some "x.id", ⟨5, 16⟩⟩, ⟨"v-for", some "x in xs", ⟨17, 32⟩⟩], false, ⟨0, 99⟩,
      ⟨1, 4⟩⟩
    [.element
      ⟨"iframe", [⟨":src", some "u", ⟨41, 49⟩⟩, ⟨"@click.stop", some "f", ⟨50, 65⟩⟩,
        ⟨"class", some "a", ⟨66, 75⟩⟩, ⟨":class", some "b", ⟨76, 86⟩⟩], true, ⟨33, 89⟩, ⟨34, 40⟩⟩
      []]

theorem Rendering.ofNode_longhand_shortSample :
    Node.shortSample.ForElements Element.DistinctKeys ∧
      Node.shortSample.ForElements Element.OneForm ∧
      ofNode true Node.shortSample.longhand =
        .ok ("<view wx:key=\"id\" wx:for=\"\x7b\x7bxs\x7d\x7d\" wx:for-item=\"x\">" ++
          "<web-view src=\"\x7b\x7bu\x7d\x7d\" catch:tap=\"f\" class=\"a \x7b\x7bb\x7d\x7d\">" ++
          "</web-view></view>") ∧
      Node.shortSample.longhand.ForElements Element.DistinctKeys ∧
      Agree (ofNode true Node.shortSample) (ofNode true Node.shortSample.longhand) := by
  have hkeys : Node.shortSample.ForElements Element.DistinctKeys := by
    simp only [Node.shortSample, Node.forElements_element, List.forall_mem_singleton,
      List.not_mem_nil, false_implies, implies_true, and_true]
    decide
  have hforms : Node.shortSample.ForElements Element.OneForm := by
    simp only [Node.shortSample, Node.forElements_element, List.forall_mem_singleton,
      List.not_mem_nil, false_implies, implies_true, and_true]
    decide
  exact ⟨hkeys, hforms, by decide +kernel, ofNode_longhand true hkeys hforms⟩

end Wxml
