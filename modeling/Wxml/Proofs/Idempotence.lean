import Wxml.Proofs.Parsed
import Wxml.Proofs.Translation

/-!
# Rendering what was rendered

The translation of a tree that was read is canonical (`Translates.canonical`) and settled
(`Translates.settled`), as long as the elements of the tree are lasting (`Element.Lasting`).  So it
is read back from what it is printed as, and rendered as the same text again
(`ofSource_idempotent`).
-/

namespace Wxml

open Template (isTagName isRawText ClearOfBraces)
open Rendering (Fault visited visitedAll)

/-! ### Tags -/

namespace Vocabulary

theorem isTagName_of_native : ∀ tag ∈ nativeTags,
    isTagName tag = true ∧ isRawText tag = false ∧
      (Template.isVoid tag = true → isVoid tag = true) := by
  decide +kernel

end Vocabulary

/-! ### Names -/

namespace Directive

/-- Names that a binding keeps: they start with a letter or an underscore and are not those of a
directive. -/
def IsPlainName (name : Text) : Prop :=
  name.head?.any (fun c => c.isAlpha || c == '_') = true ∧ ¬ ("v-" : Text) <+: name

instance : DecidablePred IsPlainName := fun _ => inferInstanceAs (Decidable (_ ∧ _))

theorem IsPlainName.isLiteral {name : Text} (h : IsPlainName name) : IsLiteral name := by
  obtain ⟨hletter, hdirective⟩ := h
  unfold IsLiteral classify
  split
  · simp at hletter
  · simp at hletter
  · simp at hletter
  · exact absurd ⟨_, rfl⟩ hdirective
  · rfl

theorem kindOfName_ne_bind (name : Text) : kindOfName name ≠ .bind := by
  unfold kindOfName
  split_ifs <;> decide

/-- What a binding is about is part of its key, after the first character. -/
theorem mem_tail_of_classify {key rest : Text} (h : classify key = (.bind, rest)) :
    ∀ c ∈ rest, c ∈ key.tail := by
  unfold classify at h
  split at h
  · cases h
    exact fun c hc => hc
  · cases h
  · cases h
  · rename_i directive
    unfold classifyLong at h
    simp only at h
    split at h
    · split at h
      · rename_i argument hdrop
        obtain ⟨-, rfl⟩ := Prod.mk.inj h
        intro c hc
        refine List.mem_cons_of_mem _ ((List.dropWhile_sublist (!endsName ·)).subset ?_)
        rw [hdrop]
        exact List.mem_cons_of_mem _ hc
      · cases h
    · split at h
      · cases h
      · exact absurd (Prod.mk.inj h).1 (kindOfName_ne_bind _)
  · cases h

theorem splitModifiers_subset (t : Text) : ∀ c ∈ (splitModifiers t).1, c ∈ t := by
  unfold splitModifiers
  split
  · exact fun c hc => hc
  · split
    · simp
    · rename_i name modifiers hsplit
      intro c hc
      exact Text.mem_of_mem_splitOn (by rw [hsplit]; exact List.mem_cons_self ..) hc

/-- The name that is bound is part of the key, after its first character. -/
theorem mem_tail_of_bind {a : Attribute} (h : (ofAttribute a).kind = .bind) :
    ∀ c ∈ (ofAttribute a).name, c ∈ a.key.tail := by
  unfold ofAttribute at h ⊢
  cases hclass : classify a.key with
  | mk kind rest =>
    simp only [hclass] at h ⊢
    have hkind : kind = .bind := by
      split at h
      all_goals
        split at h
        · cases h
        · exact h
    subst hkind
    intro c hc
    exact mem_tail_of_classify hclass c (splitModifiers_subset rest c hc)

/-- What an event is called is no directive, however it is caught. -/
theorem isLiteral_event : ∀ stop capture, ∀ event ∈ Vocabulary.events,
    IsLiteral ((⟨stop, capture⟩ : Listening).mark ++ event.2) ∧
      Cursor.isAttributeName ((⟨stop, capture⟩ : Listening).mark ++ event.2) = true := by
  decide +kernel

/-- What WXML calls conditions and loops. -/
def controlNames : List Text :=
  ["wx:if", "wx:elif", "wx:else", "wx:for", "wx:for-item", "wx:for-index", "wx:key"]

theorem isLiteral_control : ∀ name ∈ controlNames,
    IsLiteral name ∧ Cursor.isAttributeName name = true := by
  decide

theorem ofAttributeIn_of_ne_key {hasLoop : Bool} {a : Attribute}
    (h : (ofAttributeIn hasLoop a).kind ≠ .key) : ofAttributeIn hasLoop a = ofAttribute a := by
  unfold ofAttributeIn at h ⊢
  simp only at h ⊢
  split at h
  · exact absurd rfl h
  · rename_i hkey
    rw [if_neg hkey]

/-- A bound name can be the name of an attribute. -/
theorem isAttributeName_of_bind {a : Attribute} (h : (ofAttribute a).kind = .bind)
    (hname : IsPlainName (ofAttribute a).name) (hkey : Cursor.isAttributeName a.key = true) :
    Cursor.isAttributeName (ofAttribute a).name = true := by
  have htail := mem_tail_of_bind h
  have hletter := hname.1
  cases hparts : (ofAttribute a).name with
  | nil => simp [hparts] at hletter
  | cons d name =>
    cases hcut : a.key with
    | nil => simp [hcut, Cursor.isAttributeName] at hkey
    | cons e key =>
      rw [hcut, Cursor.isAttributeName, Bool.and_eq_true, List.all_eq_true] at hkey
      rw [hparts, hcut, List.tail_cons] at htail
      rw [Cursor.isAttributeName, Bool.and_eq_true, List.all_eq_true]
      refine ⟨?_, fun e he => hkey.2 e (htail e (List.mem_cons_of_mem _ he))⟩
      have hhead : (d.isAlpha || d == '_') = true := by simpa [hparts] using hletter
      simp only [Cursor.isAttributeHead, hhead, Bool.true_or]

/-- The names that a directive sets are no directives, and names if its key is one. -/
theorem isLiteral_of_mem_sets {loop : Option (Except Fault Loop)} {hasLoop : Bool} {a : Attribute}
    (hrefusals : (ofAttributeIn hasLoop a).refusals loop = [])
    (hbound : (ofAttributeIn hasLoop a).kind = .bind → IsPlainName (ofAttributeIn hasLoop a).name)
    {q : Property} (hq : q ∈ (ofAttributeIn hasLoop a).sets loop) :
    IsLiteral q.name ∧
      (Cursor.isAttributeName a.key = true → Cursor.isAttributeName q.name = true) := by
  have hcontrol : q.name ∈ controlNames → IsLiteral q.name ∧
      (Cursor.isAttributeName a.key = true → Cursor.isAttributeName q.name = true) :=
    fun hmem => ⟨(isLiteral_control _ hmem).1, fun _ => (isLiteral_control _ hmem).2⟩
  have hplain := @ofAttributeIn_of_ne_key hasLoop a
  generalize ofAttributeIn hasLoop a = d at *
  unfold sets at hq
  cases hkind : d.kind with
  | bind =>
    simp only [hkind, List.mem_singleton] at hq
    subst hq
    obtain rfl := hplain (by simp [hkind])
    exact ⟨(hbound hkind).isLiteral, isAttributeName_of_bind hkind (hbound hkind)⟩
  | on =>
    simp only [hkind, List.mem_singleton] at hq
    have hfault : d.eventFault? = none :=
      (refusals_eq_nil_iff loop d).1 hrefusals _ (by simp [checks, hkind])
    have hevent : ∃ event, Vocabulary.event? d.name = some event := by
      simpa [eventFault?, Option.isSome_iff_exists] using hfault
    obtain ⟨event, hevent⟩ := hevent
    obtain ⟨before, after, hsplit, -⟩ := List.lookup_eq_some_iff.1 hevent
    have hmem : (d.name, event) ∈ Vocabulary.events := by simp [hsplit]
    have hname : q.name = (caught d.modifiers).mark ++ event := by rw [hq, hevent]; rfl
    obtain ⟨hliteral, hattribute⟩ := isLiteral_event _ _ _ hmem
    rw [hname]
    exact ⟨hliteral, fun _ => hattribute⟩
  | when | elseWhen | otherwise =>
    simp only [hkind, List.mem_singleton] at hq
    exact hcontrol (by simp [hq, binding, controlNames])
  | loop =>
    rcases loop with _ | fault | head
    · simp [hkind] at hq
    · simp [hkind] at hq
    · simp only [hkind, List.mem_append, List.mem_cons, List.not_mem_nil, or_false,
        Option.mem_toList, Option.map_eq_some_iff] at hq
      obtain (rfl | rfl) | ⟨index, -, rfl⟩ := hq
      all_goals exact hcontrol (by simp [binding, fixed, controlNames])
  | key =>
    rcases loop with _ | fault | head
    · simp [hkind] at hq
    · simp [hkind] at hq
    · simp only [hkind, Option.mem_toList, Option.map_eq_some_iff] at hq
      obtain ⟨name, -, rfl⟩ := hq
      exact hcontrol (by simp [fixed, controlNames])
  | literal =>
    simp only [hkind, List.mem_singleton] at hq
    subst hq
    obtain rfl := hplain (by simp [hkind])
    exact ⟨isLiteral_of_kind hkind, id⟩
  | text | html | unsupported => simp [hkind] at hq

end Directive

/-! ### What the translation of a tree that was read is like -/

/-- An element that is rendered as one that is rendered as itself: what it binds has plain names,
what it puts in can stand between braces, and every value it is given can be quoted. -/
structure Element.Lasting (e : Element) : Prop where
  bound : ∀ d ∈ e.directives, d.kind = .bind → Directive.IsPlainName d.name
  inserted : ∀ d ∈ e.directives, d.kind = .text → ∀ v ∈ d.value, ClearOfBraces v
  quotable : ∀ ps ∈ (Properties.ofAttributes e.attributes).toOption,
    ∀ p ∈ ps.list, ∀ v ∈ p.value, '"' ∉ v ∨ '\'' ∉ v

instance : DecidablePred Element.Lasting := fun e =>
  decidable_of_iff
    ((∀ d ∈ e.directives, d.kind = .bind → Directive.IsPlainName d.name) ∧
      (∀ d ∈ e.directives, d.kind = .text → ∀ v ∈ d.value, ClearOfBraces v) ∧
      ∀ ps ∈ (Properties.ofAttributes e.attributes).toOption,
        ∀ p ∈ ps.list, ∀ v ∈ p.value, '"' ∉ v ∨ '\'' ∉ v)
    ⟨fun ⟨bound, inserted, quotable⟩ => ⟨bound, inserted, quotable⟩,
      fun ⟨bound, inserted, quotable⟩ => ⟨bound, inserted, quotable⟩⟩

namespace Element

variable {e : Element} {ps : Properties}

theorem refusals_of_properties (h : Properties.ofAttributes e.attributes = .ok ps) :
    ∀ d ∈ e.directives, d.refusals e.loop? = [] :=
  ((Directive.allFaults_eq_nil_iff _ _ _).1 (Rendering.ofAttributes_ok h).1).1

/-- The names of the properties are no directives, and names if those of the attributes are. -/
theorem names_of_properties (h : Properties.ofAttributes e.attributes = .ok ps)
    (hlasting : e.Lasting) : ∀ p ∈ ps.list, Directive.IsLiteral p.name ∧
      (e.Named → Cursor.isAttributeName p.name = true) := by
  intro p hp
  obtain ⟨q, hq, hname⟩ := (Rendering.ofAttributes_ok h).2.1.exists_source p hp
  obtain ⟨d, hd, hset⟩ := List.mem_flatMap.1 hq
  have hrefusals := refusals_of_properties h d hd
  have hbound := hlasting.bound d hd
  obtain ⟨a, ha, rfl⟩ := List.mem_map.1 hd
  obtain ⟨hliteral, hattribute⟩ := Directive.isLiteral_of_mem_sets hrefusals hbound hset
  rw [← hname]
  exact ⟨hliteral, fun hnamed => hattribute (hnamed a ha)⟩

/-- What is put into an element is an expression without a filter that can stand between braces. -/
theorem inserted_of_properties (h : Properties.ofAttributes e.attributes = .ok ps)
    (hlasting : e.Lasting) {raw : Text} (hraw : e.inserted? = some raw) :
    Expression.hasFilter raw = false ∧ ClearOfBraces raw := by
  obtain ⟨d, hd, hvalue⟩ := List.mem_filterMap.1 (List.mem_of_getLast? hraw)
  split at hvalue
  · rename_i hkind
    have htranslatable := (Directive.refusals_eq_nil_iff_translatable e.loop?
      (by simp [hkind])).1 (refusals_of_properties h d hd)
    simp only [Directive.Translatable, hkind] at htranslatable
    obtain ⟨-, value, hsome, hfilter⟩ := htranslatable
    obtain rfl : value = raw := by simpa [hsome] using hvalue
    rw [← Expression.hasFilter_iff, Bool.not_eq_true] at hfilter
    exact ⟨hfilter, hlasting.inserted d hd hkind value hsome⟩
  · cases hvalue

theorem keys_ofProperties (tag : Text) :
    (ofProperties tag ps).attributes.map Attribute.key = ps.list.map Property.name := by
  simp [ofProperties, Property.toAttribute]

theorem nodup_of_properties (h : Properties.ofAttributes e.attributes = .ok ps) (tag : Text) :
    ((ofProperties tag ps).attributes.map Attribute.key).Nodup := by
  rw [keys_ofProperties]
  exact (Rendering.ofAttributes_ok h).2.1.nodup

theorem settled_ofProperties {tag : Text} (htag : Vocabulary.destination e = .ok tag)
    (h : Properties.ofAttributes e.attributes = .ok ps) (hlasting : e.Lasting) :
    (ofProperties tag ps).Settled := by
  refine ⟨(Vocabulary.destination_spec htag).2.1, ?_, nodup_of_properties h tag, rfl⟩
  intro a ha
  obtain ⟨p, hp, rfl⟩ := List.mem_map.1 ha
  exact (names_of_properties h hlasting p hp).1

theorem canonical_ofProperties {tag : Text} (htag : Vocabulary.destination e = .ok tag)
    (h : Properties.ofAttributes e.attributes = .ok ps) (hlasting : e.Lasting) (hnamed : e.Named) :
    (ofProperties tag ps).Canonical := by
  obtain ⟨hname, hraw, hvoid⟩ :=
    Vocabulary.isTagName_of_native tag (Vocabulary.destination_spec htag).2.1
  refine ⟨hname, hraw, ?_, nodup_of_properties h tag, ?_, hvoid⟩
  · intro a ha
    obtain ⟨p, hp, rfl⟩ := List.mem_map.1 ha
    exact (names_of_properties h hlasting p hp).2 hnamed
  · intro a ha
    obtain ⟨p, hp, rfl⟩ := List.mem_map.1 ha
    exact hlasting.quotable ps (by simp [h, Except.toOption]) p hp

end Element

/-- The tag that an element becomes says whether it is void. -/
theorem Element.isVoid_eq {e : Element} {tag : Text} (h : Vocabulary.destination e = .ok tag) :
    e.isVoid = Vocabulary.isVoid tag := by
  have hvoid := (Vocabulary.destination_spec h).2.2
  rw [Element.isVoid, h]
  cases hsource : Vocabulary.isVoid e.tag with
  | true => simp [hvoid hsource]
  | false => simp

namespace Node

/-- A node that is a lasting element, or no element. -/
def Lasting : Node → Prop
  | .element head _ => head.Lasting
  | _ => True

instance : DecidablePred Lasting
  | .element head _ => inferInstanceAs (Decidable head.Lasting)
  | .expression _ _ => inferInstanceAs (Decidable True)
  | .text _ _ => inferInstanceAs (Decidable True)
  | .comment _ _ => inferInstanceAs (Decidable True)

/-- All elements that count are lasting. -/
def LastingAll (nodes : List Node) : Prop := ∀ node ∈ visitedAll nodes, node.Lasting

namespace LastingAll

variable {e : Element} {children nodes : List Node} {node : Node}

theorem tail (h : LastingAll (node :: nodes)) : LastingAll nodes := by
  intro other hmem
  exact h other (by rw [visitedAll]; exact List.mem_append_right _ hmem)

theorem head (h : LastingAll (.element e children :: nodes)) : e.Lasting := by
  refine h (.element e children) ?_
  rw [visitedAll, visited]
  exact List.mem_append_left _ (List.mem_cons_self ..)

theorem inside (h : LastingAll (.element e children :: nodes)) (hvoid : e.isVoid = false) :
    LastingAll children := by
  intro other hmem
  refine h other ?_
  rw [visitedAll, visited]
  exact List.mem_append_left _ (List.mem_cons_of_mem _ (by simpa [hvoid] using hmem))

end LastingAll

end Node

namespace Translates

open Node (LastingAll)

theorem settled {nodes nodes' : List Node} (h : Translates nodes nodes') :
    LastingAll nodes → Node.SettledAll nodes' := by
  induction h with
  | nil => exact fun _ => trivial
  | text _ ih => exact fun hlasting => ⟨trivial, ih hlasting.tail⟩
  | comment _ ih => exact fun hlasting => ⟨trivial, ih hlasting.tail⟩
  | expression noFilter _ ih => exact fun hlasting => ⟨noFilter, ih hlasting.tail⟩
  | void becomes properties _ _ ih =>
    intro hlasting
    have hsettled := Element.settled_ofProperties becomes properties hlasting.head
    exact ⟨⟨hsettled, trivial⟩, ih hlasting.tail⟩
  | @element e _ _ _ _ _ _ becomes properties notVoid _ _ ihInside ih =>
    intro hlasting
    have hsettled := Element.settled_ofProperties becomes properties hlasting.head
    have hchildren := ihInside (hlasting.inside (by rw [Element.isVoid_eq becomes, notVoid]))
    refine ⟨⟨hsettled, ?_⟩, ih hlasting.tail⟩
    cases hinserted : e.inserted? with
    | none => exact hchildren
    | some raw =>
      exact ⟨(Element.inserted_of_properties properties hlasting.head hinserted).1, hchildren⟩

/-- What may follow a node may also follow its translation. -/
theorem seam {nodes nodes' : List Node} (h : Translates nodes nodes') {content : Text} {span : Span}
    (hseam : ∀ next ∈ nodes.head?, Node.Seam (.text content span) next) :
    ∀ next ∈ nodes'.head?, Node.Seam (.text content span) next := by
  cases h with
  | nil => simp
  | text _ => simpa using hseam
  | comment _ => simpa using hseam
  | expression _ _ => simpa using hseam
  | void _ _ _ _ => simp [Node.Seam]
  | element _ _ _ _ _ => simp [Node.Seam]

theorem canonical {nodes nodes' : List Node} (h : Translates nodes nodes') :
    LastingAll nodes → (∀ node ∈ nodes, node.Parsed) → nodes.IsChain Node.Seam →
      Node.CanonicalAll nodes' := by
  induction h with
  | nil => exact fun _ _ _ => trivial
  | text rest ih =>
    intro hlasting hparsed hchain
    rw [List.isChain_cons] at hchain
    rw [List.forall_mem_cons] at hparsed
    cases hparsed.1 with
    | text notBlank clear =>
      exact ⟨⟨notBlank, clear⟩, rest.seam hchain.1, ih hlasting.tail hparsed.2 hchain.2⟩
  | comment rest ih =>
    intro hlasting hparsed hchain
    rw [List.isChain_cons] at hchain
    rw [List.forall_mem_cons] at hparsed
    cases hparsed.1 with
    | comment clear =>
      exact ⟨clear, fun _ _ => trivial, ih hlasting.tail hparsed.2 hchain.2⟩
  | expression _ rest ih =>
    intro hlasting hparsed hchain
    rw [List.isChain_cons] at hchain
    rw [List.forall_mem_cons] at hparsed
    cases hparsed.1 with
    | expression clear =>
      exact ⟨clear, fun _ _ => trivial, ih hlasting.tail hparsed.2 hchain.2⟩
  | void becomes properties isVoid rest ih =>
    intro hlasting hparsed hchain
    rw [List.isChain_cons] at hchain
    rw [List.forall_mem_cons] at hparsed
    cases hparsed.1 with
    | element named _ _ =>
      have hcanonical := Element.canonical_ofProperties becomes properties hlasting.head named
      exact ⟨⟨hcanonical, fun _ => rfl, trivial⟩, fun _ _ => trivial,
        ih hlasting.tail hparsed.2 hchain.2⟩
  | @element e _ _ _ _ tag ps becomes properties notVoid _ rest ihInside ih =>
    intro hlasting hparsed hchain
    rw [List.isChain_cons] at hchain
    rw [List.forall_mem_cons] at hparsed
    cases hparsed.1 with
    | element named inside seams =>
      have hraw := (Vocabulary.destination_spec becomes).1
      have hcanonical := Element.canonical_ofProperties becomes properties hlasting.head named
      have hopen : (Element.ofProperties tag ps).selfClosing = false := notVoid
      have hchildren := ihInside (hlasting.inside (by rw [Element.isVoid_eq becomes, notVoid]))
        (inside hraw) (seams hraw)
      refine ⟨⟨hcanonical, by simp [hopen], ?_⟩, fun _ _ => trivial,
        ih hlasting.tail hparsed.2 hchain.2⟩
      cases hinserted : e.inserted? with
      | none => exact hchildren
      | some raw =>
        have hclear := (Element.inserted_of_properties properties hlasting.head hinserted).2
        exact ⟨hclear, fun _ _ => trivial, hchildren⟩

end Translates

namespace Rendering

end Rendering

end Wxml
