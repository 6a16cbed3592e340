import Mathlib.Data.List.Infix
import Wxml.Property
import Wxml.Proofs.Placement

/-!
# Printing template trees

`Prints nodes t` says that a text is some nodes written one after another, with either quote
character around each value that does not hold it, and `Node.print` is one such text.  A tree is
canonical (`Node.Canonical`) if no two of its nodes run into each other when they are written: names
are names, contents do not hold what would end them, and texts are as long as they can be.

The main statement is `Template.build_scan_of_prints`: reading a printed list of canonical nodes
puts these nodes, up to where they stand (`Node.unplaced`), after those that were read before.  It
holds inside any open elements, and the induction along the printed text needs it so.
-/

namespace Wxml

open Template

/-! ### Trees that stand nowhere -/

/-- An element that stands nowhere, nor do its attributes. -/
def Element.unplaced (e : Element) : Element :=
  ⟨e.tag, e.attributes.map Attribute.unplaced, e.selfClosing, .empty 0, .empty 0⟩

namespace Node

mutual

/-- A tree without the places of its nodes. -/
def unplaced : Node → Node
  | .element head children => .element head.unplaced (unplacedAll children)
  | .expression raw _ => .expression raw (.empty 0)
  | .text content _ => .text content (.empty 0)
  | .comment content _ => .comment content (.empty 0)

def unplacedAll : List Node → List Node
  | [] => []
  | node :: nodes => node.unplaced :: unplacedAll nodes

end

theorem unplacedAll_eq_map (nodes : List Node) : unplacedAll nodes = nodes.map unplaced := by
  induction nodes with
  | nil => rfl
  | cons node nodes ih => rw [unplacedAll, ih, List.map_cons]

end Node

/-! ### Printed trees -/

/-- An attribute as it is written, after a space: in double quotes if it can be. -/
def Attribute.markup (a : Attribute) : Text := (⟨a.key, a.value, false⟩ : Property).markup

namespace Node

mutual

/-- A tree as it is written. -/
def print : Node → Text
  | .element head children =>
    let start := '<' :: (head.tag ++ (head.attributes.flatMap Attribute.markup ++
      tagEnd head.selfClosing))
    if head.selfClosing then start
    else start ++ (printAll children ++ ("</" ++ (head.tag ++ ['>'])))
  | .expression raw _ => "\x7b\x7b" ++ (raw ++ "\x7d\x7d")
  | .text content _ => content
  | .comment content _ => "<!--" ++ (content ++ "-->")

def printAll : List Node → Text
  | [] => []
  | node :: nodes => node.print ++ printAll nodes

end

theorem printAll_append (nodes more : List Node) :
    printAll (nodes ++ more) = printAll nodes ++ printAll more := by
  induction nodes with
  | nil => rfl
  | cons node nodes ih => rw [List.cons_append, printAll, printAll, ih, List.append_assoc]

/-- A text is some nodes written one after another. -/
inductive Prints : List Node → Text → Prop
  | nil : Prints [] []
  | text {content : Text} {span : Span} {nodes : List Node} {t : Text} (rest : Prints nodes t) :
      Prints (.text content span :: nodes) (content ++ t)
  | comment {content : Text} {span : Span} {nodes : List Node} {t : Text} (rest : Prints nodes t) :
      Prints (.comment content span :: nodes) ("<!--" ++ (content ++ ("-->" ++ t)))
  | expression {raw : Text} {span : Span} {nodes : List Node} {t : Text} (rest : Prints nodes t) :
      Prints (.expression raw span :: nodes) ("\x7b\x7b" ++ (raw ++ ("\x7d\x7d" ++ t)))
  | selfClosing {head : Element} {children nodes : List Node} {attributes t : Text}
      (closed : head.selfClosing = true) (inTag : Attribute.Written head.attributes attributes)
      (rest : Prints nodes t) :
      Prints (.element head children :: nodes)
        ('<' :: (head.tag ++ (attributes ++ (tagEnd true ++ t))))
  | element {head : Element} {children nodes : List Node} {attributes content t : Text}
      (opened : head.selfClosing = false) (inTag : Attribute.Written head.attributes attributes)
      (inside : Prints children content) (rest : Prints nodes t) :
      Prints (.element head children :: nodes)
        ('<' :: (head.tag ++ (attributes ++ (tagEnd false ++
          (content ++ ("</" ++ (head.tag ++ '>' :: t)))))))

end Node

/-! ### Canonical trees -/

/-- An element whose tag can be read back: its names are names, its keys distinct, its values can be
quoted, and it is self-closing if it is void. -/
structure Element.Canonical (e : Element) : Prop where
  tag : isTagName e.tag = true
  notRaw : isRawText e.tag = false
  keys : ∀ a ∈ e.attributes, Cursor.isAttributeName a.key = true
  distinct : (e.attributes.map Attribute.key).Nodup
  values : ∀ a ∈ e.attributes, ∀ v ∈ a.value, '"' ∉ v ∨ '\'' ∉ v
  void : isVoid e.tag = true → e.selfClosing = true

namespace Template

/-- Texts that closing braces can follow: there are none inside, nor one at the end. -/
def ClearOfBraces (raw : Text) : Prop :=
  ¬ ("\x7d\x7d" : Text) <:+: raw ∧ raw.getLast? ≠ some '\x7d'

/-- Texts in which no markup starts. -/
def ClearOfMarkup (content : Text) : Prop := ∀ t ∈ content.tails, startsMarkup t = false

/-- Texts that can stand in a comment. -/
def ClearOfComments (content : Text) : Prop := ¬ ("-->" : Text) <:+: content

instance : DecidablePred ClearOfBraces := fun _ => inferInstanceAs (Decidable (_ ∧ _))

instance : DecidablePred ClearOfMarkup := fun _ => inferInstanceAs (Decidable (∀ _ ∈ _, _))

instance : DecidablePred ClearOfComments := fun _ => inferInstanceAs (Decidable (¬ _))

end Template

namespace Node

/-- Which nodes may follow each other.  More text does not follow a text, nor an interpolation one
that ends with a brace. -/
def Seam : Node → Node → Prop
  | .text _ _, .text _ _ => False
  | .text content _, .expression _ _ => content.getLast? ≠ some '\x7b'
  | _, _ => True

instance decidableSeam : (node next : Node) → Decidable (Seam node next)
  | .text _ _, .text _ _ => inferInstanceAs (Decidable False)
  | .text content _, .expression _ _ =>
    inferInstanceAs (Decidable (content.getLast? ≠ some '\x7b'))
  | .text _ _, .element _ _ => inferInstanceAs (Decidable True)
  | .text _ _, .comment _ _ => inferInstanceAs (Decidable True)
  | .element _ _, _ => inferInstanceAs (Decidable True)
  | .expression _ _, _ => inferInstanceAs (Decidable True)
  | .comment _ _, _ => inferInstanceAs (Decidable True)

mutual

/-- A tree that can be read back from what it is written as. -/
def Canonical : Node → Prop
  | .element head children =>
    head.Canonical ∧ (head.selfClosing = true → children = []) ∧ CanonicalAll children
  | .expression raw _ => ClearOfBraces raw
  | .text content _ => Text.allBlank content = false ∧ ClearOfMarkup content
  | .comment content _ => ClearOfComments content

/-- Canonical trees that can stand one after another. -/
def CanonicalAll : List Node → Prop
  | [] => True
  | node :: nodes => node.Canonical ∧ (∀ next ∈ nodes.head?, Seam node next) ∧ CanonicalAll nodes

end

instance : DecidablePred Element.Canonical := fun e =>
  decidable_of_iff
    ((isTagName e.tag = true ∧ isRawText e.tag = false) ∧
      ((∀ a ∈ e.attributes, Cursor.isAttributeName a.key = true) ∧
        (e.attributes.map Attribute.key).Nodup) ∧
      (∀ a ∈ e.attributes, ∀ v ∈ a.value, '"' ∉ v ∨ '\'' ∉ v) ∧
      (isVoid e.tag = true → e.selfClosing = true))
    ⟨fun ⟨⟨tag, notRaw⟩, ⟨keys, distinct⟩, values, void⟩ =>
      ⟨tag, notRaw, keys, distinct, values, void⟩,
      fun ⟨tag, notRaw, keys, distinct, values, void⟩ =>
        ⟨⟨tag, notRaw⟩, ⟨keys, distinct⟩, values, void⟩⟩

mutual

def decidableCanonical : (node : Node) → Decidable node.Canonical
  | .element head children =>
    have := decidableCanonicalAll children
    inferInstanceAs (Decidable (head.Canonical ∧
      (head.selfClosing = true → children = []) ∧ CanonicalAll children))
  | .expression raw _ => inferInstanceAs (Decidable (ClearOfBraces raw))
  | .text content _ =>
    inferInstanceAs (Decidable (Text.allBlank content = false ∧ ClearOfMarkup content))
  | .comment content _ => inferInstanceAs (Decidable (ClearOfComments content))

def decidableCanonicalAll : (nodes : List Node) → Decidable (CanonicalAll nodes)
  | [] => inferInstanceAs (Decidable True)
  | node :: nodes =>
    have := decidableCanonical node
    have := decidableCanonicalAll nodes
    inferInstanceAs (Decidable (node.Canonical ∧ (∀ next ∈ nodes.head?, Seam node next) ∧
      CanonicalAll nodes))

end

instance : DecidablePred Canonical := decidableCanonical

end Node

/-! ### Canonical trees are printed -/

theorem Attribute.written_markup {as : List Attribute}
    (h : ∀ a ∈ as, ∀ v ∈ a.value, '"' ∉ v ∨ '\'' ∉ v) :
    Written as (as.flatMap Attribute.markup) := by
  induction as with
  | nil => exact .nil
  | cons a as ih =>
    simp only [List.mem_cons, forall_eq_or_imp] at h
    obtain ⟨key, value, span⟩ := a
    cases value with
    | none => exact .flag (ih h.2)
    | some v =>
      have hquote : Cursor.isQuote (Property.quote v) = true := by
        unfold Property.quote
        split <;> decide
      have hclear : Property.quote v ∉ v := by
        unfold Property.quote
        split
        · rename_i hdouble
          simp only [List.contains_eq_mem, decide_eq_true_eq] at hdouble
          exact (h.1 v rfl).resolve_left (not_not.2 hdouble)
        · rename_i hdouble
          simpa using hdouble
      have hvalued : Written (⟨key, some v, span⟩ :: as) _ := .valued hquote hclear (ih h.2)
      simpa [Attribute.markup, Property.markup] using hvalued

namespace Node

mutual

theorem prints_print (node : Node) (h : node.Canonical) {nodes : List Node} {t : Text}
    (hrest : Prints nodes t) : Prints (node :: nodes) (node.print ++ t) := by
  match node with
  | .text content span => exact .text hrest
  | .comment content span => simpa [print] using Prints.comment hrest
  | .expression raw span => simpa [print] using Prints.expression hrest
  | .element head children =>
    obtain ⟨hhead, -, hchildren⟩ := h
    have hattributes := Attribute.written_markup hhead.values
    cases hclosing : head.selfClosing with
    | true => simpa [print, hclosing] using Prints.selfClosing hclosing hattributes hrest
    | false =>
      have hinside := prints_printAll children hchildren
      simpa [print, hclosing] using Prints.element hclosing hattributes hinside hrest

/-- A canonical tree can be written. -/
theorem prints_printAll (nodes : List Node) (h : CanonicalAll nodes) :
    Prints nodes (printAll nodes) := by
  match nodes with
  | [] => exact .nil
  | node :: nodes => exact prints_print node h.1 (prints_printAll nodes h.2.2)

end

end Node

/-! ### Printed nodes are read back -/

namespace Template

/-- Which two characters markup starts with. -/
theorem startsMarkup_cons_cons {a b : Char} {t : Text} :
    startsMarkup (a :: b :: t) = true ↔ (a = '\x7b' ∧ b = '\x7b') ∨
      (a = '<' ∧ (b = '/' ∨ b.isAlpha = true ∨ (b = '!' ∧ ("--" : Text) <+: t))) := by
  have helement : startsElement (a :: b :: t) = true ↔ a = '<' ∧ b.isAlpha = true := by
    simp [Event.startsElement_iff]
  have hbraces : ("\x7b\x7b" : Text) <+: a :: b :: t ↔ a = '\x7b' ∧ b = '\x7b' := by
    simp [eq_comm]
  have hclosing : ("</" : Text) <+: a :: b :: t ↔ a = '<' ∧ b = '/' := by simp [eq_comm]
  have hcomment : ("<!--" : Text) <+: a :: b :: t ↔ a = '<' ∧ b = '!' ∧ ("--" : Text) <+: t := by
    simp [eq_comm]
  rw [startsMarkup, Bool.or_eq_true, Bool.or_eq_true, Bool.or_eq_true, helement,
    List.isPrefixOf_iff_prefix, List.isPrefixOf_iff_prefix, List.isPrefixOf_iff_prefix, hbraces,
    hclosing, hcomment]
  constructor
  · rintro (((h | ⟨ha, h⟩) | ⟨ha, h⟩) | ⟨ha, h⟩)
    · exact .inl h
    · exact .inr ⟨ha, .inl h⟩
    · exact .inr ⟨ha, .inr (.inr h)⟩
    · exact .inr ⟨ha, .inr (.inl h)⟩
  · rintro (h | ⟨ha, h | h | h⟩)
    · exact .inl (.inl (.inl h))
    · exact .inl (.inl (.inr ⟨ha, h⟩))
    · exact .inr ⟨ha, h⟩
    · exact .inl (.inr ⟨ha, h⟩)

/-- No markup starts inside a text and ends after it. -/
theorem startsMarkup_append {u rest : Text} (hu : u ≠ []) (h : startsMarkup u = false)
    (hrest : ∀ c, rest.head? = some c → c = '<' ∨ (c = '\x7b' ∧ u.getLast? ≠ some '\x7b')) :
    startsMarkup (u ++ rest) = false := by
  cases rest with
  | nil => simpa using h
  | cons d rest =>
    have hd := hrest d rfl
    match u with
    | [a] =>
      rw [Bool.eq_false_iff, List.singleton_append, ne_eq, startsMarkup_cons_cons]
      obtain rfl | ⟨rfl, hlast⟩ := hd
      · simp
      · simp at hlast
        simp [hlast]
    | a :: b :: u =>
      rw [Bool.eq_false_iff, ne_eq, startsMarkup_cons_cons] at h
      rw [Bool.eq_false_iff, List.cons_append, List.cons_append, ne_eq, startsMarkup_cons_cons]
      -- Of all markup only a comment is known by more than two characters, and `d` is no dash.
      have hdash : ("--" : Text) <+: u ++ d :: rest → ("--" : Text) <+: u := by
        have : d ≠ '-' := by obtain rfl | ⟨rfl, -⟩ := hd <;> decide
        match u with
        | [] => simp [this.symm]
        | [c] => simp [this.symm]
        | c :: e :: u => simp
      exact fun hmarkup => h (hmarkup.imp_right (And.imp_right (Or.imp_right (Or.imp_right
        (And.imp_right hdash)))))

/-- The texts before which any text ends: nothing, or markup that starts with a `<`. -/
def Stops (t : Text) : Prop := t = [] ∨ t.head? = some '<' ∧ startsMarkup t = true

theorem Stops.startsMarkup {t : Text} (h : Stops t) : t = [] ∨ startsMarkup t = true :=
  h.imp_right And.right

theorem stops_closing (rest : Text) : Stops ("</" ++ rest) :=
  .inr ⟨rfl, startsMarkup_cons_cons.2 (.inr ⟨rfl, .inl rfl⟩)⟩

theorem startsElement_tag {tag : Text} (rest : Text) (h : isTagName tag = true) :
    startsElement ('<' :: (tag ++ rest)) = true := by
  cases tag with
  | nil => simp [isTagName] at h
  | cons c tag =>
    simp only [isTagName, Bool.and_eq_true] at h
    exact Event.startsElement_iff.2 ⟨c, tag ++ rest, rfl, h.1⟩

open Node in
/-- Markup follows a text, and none that the text is part of. -/
theorem startsMarkup_of_seam {content : Text} {span : Span} {nodes : List Node} {t rest : Text}
    (h : Prints nodes t) (hnodes : CanonicalAll nodes)
    (hseam : ∀ next ∈ nodes.head?, Seam (.text content span) next) (hrest : Stops rest) :
    (t ++ rest = [] ∨ startsMarkup (t ++ rest) = true) ∧
      ∀ c, (t ++ rest).head? = some c →
        c = '<' ∨ (c = '\x7b' ∧ content.getLast? ≠ some '\x7b') := by
  cases h with
  | nil =>
    refine ⟨hrest.startsMarkup, fun c hc => .inl ?_⟩
    obtain rfl | ⟨hhead, -⟩ := hrest
    · simp at hc
    · rw [List.nil_append, hhead] at hc
      exact (Option.some.inj hc).symm
  | text => exact (hseam _ rfl).elim
  | comment _ =>
    refine ⟨.inr ?_, fun c hc => .inl ?_⟩
    · exact startsMarkup_cons_cons.2 (.inr ⟨rfl, .inr (.inr ⟨rfl, _, rfl⟩)⟩)
    · simpa [eq_comm] using hc
  | expression _ =>
    refine ⟨.inr ?_, fun c hc => .inr ⟨?_, hseam _ rfl⟩⟩
    · exact startsMarkup_cons_cons.2 (.inl ⟨rfl, rfl⟩)
    · simpa [eq_comm] using hc
  | selfClosing | element =>
    refine ⟨.inr ?_, fun c hc => .inl ?_⟩
    · rw [List.cons_append, List.append_assoc]
      simp [startsMarkup, startsElement_tag _ hnodes.1.1.tag]
    · simpa [eq_comm] using hc

namespace Event

/-- A printed text is read back. -/
theorem read_text {content : Text} {rest : Text} (k : Nat) (hblank : Text.allBlank content = false)
    (hplain : ClearOfMarkup content)
    (hrest : rest = [] ∨ startsMarkup rest = true)
    (hnext : ∀ c, rest.head? = some c → c = '<' ∨ (c = '\x7b' ∧ content.getLast? ≠ some '\x7b')) :
    ∃ span k', read ⟨k, content ++ rest⟩ =
      .ok (some (.complete (.text content span)), ⟨k', rest⟩) := by
  have hne : content ≠ [] := by
    rintro rfl
    simp [Text.allBlank] at hblank
  have hinside : ∀ u, u ≠ [] → u <:+ content → startsMarkup (u ++ rest) = false := by
    intro u hu hsuffix
    refine startsMarkup_append hu (hplain u ((List.mem_tails u content).2 hsuffix)) fun c hc => ?_
    have hlast : u.getLast? = content.getLast? := by
      obtain ⟨before, rfl⟩ := hsuffix
      rw [List.getLast?_append_of_ne_nil _ hu]
    rw [hlast]
    exact hnext c hc
  obtain ⟨span, hread⟩ := readText_append k hne hrest hinside
  refine ⟨span, k + Text.size content, ?_⟩
  rw [read_of_text (hinside content hne (List.suffix_refl _)), hread, textNode?,
    if_neg (by simp [hblank])]
  rfl

/-- A printed tag is read back: as a whole element if it is self-closing, and otherwise as an
element that is open. -/
theorem read_tag {head : Element} {attributes : Text} (k : Nat) (rest : Text) (h : head.Canonical)
    (hwritten : Attribute.Written head.attributes attributes) :
    ∃ head' k', head'.unplaced = head.unplaced ∧
      read ⟨k, '<' :: (head.tag ++ (attributes ++ (tagEnd head.selfClosing ++ rest)))⟩ =
        .ok (some (if head.selfClosing then .complete (.element head' []) else .opened head'),
          ⟨k', rest⟩) := by
  obtain ⟨head', k', hread, htag, hclosing, halike⟩ :=
    readTag_written head.selfClosing rest k h.tag h.keys h.distinct hwritten
  refine ⟨head', k', by simp [Element.unplaced, htag, hclosing, halike], ?_⟩
  refine read_of_element (startsElement_tag _ h.tag) ?_
  rw [readElement, hread]
  simp only [hclosing, htag, h.notRaw]
  cases hself : head.selfClosing with
  | true => rfl
  | false =>
    have hvoid : isVoid head.tag = false := by
      rw [Bool.eq_false_iff]
      intro hvoid
      simp [h.void hvoid] at hself
    simp [hvoid]

end Event

/-- The text between two cursors is read as some nodes, after those before and whatever elements are
open. -/
def Yields (c : Cursor) (nodes : List Node) (last : Cursor) : Prop :=
  ∀ (before : List Node) (frames : List Frame),
    build (Event.scan c) before frames = build (Event.scan last) (nodes.reverse ++ before) frames

namespace Yields

theorem nil (c : Cursor) : Yields c [] c := fun _ _ => rfl

/-- One more node is read before others. -/
theorem cons {c after last : Cursor} {node : Node} {nodes : List Node}
    (hread : Event.read c = .ok (some (.complete node), after)) (h : Yields after nodes last) :
    Yields c (node :: nodes) last := by
  intro before frames
  rw [Event.scan_of_read_some hread, build, h (node :: before) frames, List.reverse_cons,
    List.append_assoc]
  rfl

/-- An element is read before others: its tag, its content, and its closing tag. -/
theorem element {c inner close after last : Cursor} {head : Element} {children nodes : List Node}
    {name : Text} {span : Span} {stop : Nat}
    (hopened : Event.read c = .ok (some (.opened head), inner))
    (hinside : Yields inner children close)
    (hclosed : Event.read close = .ok (some (.closed name span stop), after))
    (hname : name = head.tag) (h : Yields after nodes last) :
    Yields c (.element { head with span := ⟨head.span.start, stop⟩ } children :: nodes) last := by
  intro before frames
  rw [Event.scan_of_read_some hopened, build, hinside, Event.scan_of_read_some hclosed, build,
    if_pos hname, h, List.reverse_cons, List.append_assoc, List.append_nil, List.reverse_reverse]
  rfl

end Yields

open Node in
/-- Printed nodes are read back, up to where they stand. -/
theorem yields_of_prints {nodes : List Node} {t : Text} (h : Prints nodes t) :
    CanonicalAll nodes → ∀ (k : Nat) {rest : Text}, Stops rest →
      ∃ nodes' k', unplacedAll nodes' = unplacedAll nodes ∧
        Yields ⟨k, t ++ rest⟩ nodes' ⟨k', rest⟩ := by
  induction h with
  | nil => exact fun _ k rest _ => ⟨[], k, rfl, .nil _⟩
  | @text content span nodes t printed ih =>
    intro hnodes k rest hrest
    obtain ⟨⟨hblank, hplain⟩, hseam, hmore⟩ := hnodes
    obtain ⟨hmarkup, hnext⟩ := startsMarkup_of_seam printed hmore hseam hrest
    obtain ⟨span', k₁, hread⟩ := Event.read_text k hblank hplain hmarkup hnext
    obtain ⟨nodes', k', halike, hyields⟩ := ih hmore k₁ hrest
    refine ⟨.text content span' :: nodes', k', by simp [unplacedAll, unplaced, halike], ?_⟩
    rw [List.append_assoc]
    exact .cons hread hyields
  | @comment content span nodes t printed ih =>
    intro hnodes k rest hrest
    obtain ⟨hcontent, -, hmore⟩ := hnodes
    obtain ⟨k₁, hcomment⟩ := Cursor.comment?_append k (t ++ rest) hcontent
    have hread := Event.read_of_comment (List.prefix_append _ _) hcomment
    obtain ⟨nodes', k', halike, hyields⟩ := ih hmore k₁ hrest
    refine ⟨.comment content ⟨k, k₁⟩ :: nodes', k', by simp [unplacedAll, unplaced, halike], ?_⟩
    rw [List.append_assoc, List.append_assoc, List.append_assoc]
    exact .cons hread hyields
  | @expression raw span nodes t printed ih =>
    intro hnodes k rest hrest
    obtain ⟨⟨hraw, hlast⟩, -, hmore⟩ := hnodes
    obtain ⟨span', k₁, hinterpolation⟩ := Event.readInterpolation_append k (t ++ rest) hraw hlast
    have hread := Event.read_of_interpolation (List.prefix_append _ _) hinterpolation
    obtain ⟨nodes', k', halike, hyields⟩ := ih hmore k₁ hrest
    refine ⟨.expression raw span' :: nodes', k', by simp [unplacedAll, unplaced, halike], ?_⟩
    rw [List.append_assoc, List.append_assoc, List.append_assoc]
    exact .cons hread hyields
  | @selfClosing head children nodes attributes t closed written printed ih =>
    intro hnodes k rest hrest
    obtain ⟨⟨hhead, hnone, -⟩, -, hmore⟩ := hnodes
    obtain ⟨head', k₁, hsame, hread⟩ := Event.read_tag k (t ++ rest) hhead written
    simp only [closed, ↓reduceIte] at hread
    obtain ⟨nodes', k', halike, hyields⟩ := ih hmore k₁ hrest
    refine ⟨.element head' [] :: nodes', k', ?_, ?_⟩
    · simp [unplacedAll, unplaced, halike, hsame, hnone closed]
    · simpa using Yields.cons hread hyields
  | @element head children nodes attributes content t opened written inside printed ihInside ih =>
    intro hnodes k rest hrest
    obtain ⟨⟨hhead, -, hchildren⟩, -, hmore⟩ := hnodes
    obtain ⟨head', k₁, hsame, hread⟩ := Event.read_tag k
      (content ++ ("</" ++ (head.tag ++ '>' :: (t ++ rest)))) hhead written
    simp only [opened, Bool.false_eq_true, ↓reduceIte] at hread
    -- For the children, what stops the text is the closing tag of this element.
    obtain ⟨children', k₂, hchildren', hinside⟩ :=
      ihInside hchildren k₁ (stops_closing (head.tag ++ '>' :: (t ++ rest)))
    obtain ⟨span, stop, k₃, hclosing⟩ := Event.readClosing_append k₂ (t ++ rest) hhead.tag
    have hclose := Event.read_of_closing (c := ⟨k₂, "</" ++ (head.tag ++ '>' :: (t ++ rest))⟩)
      (List.prefix_append _ _)
    rw [hclosing] at hclose
    obtain ⟨nodes', k', halike, hyields⟩ := ih hmore k₃ hrest
    have htag : head.unplaced.tag = head'.unplaced.tag := congrArg Element.tag hsame.symm
    refine ⟨.element { head' with span := ⟨head'.span.start, stop⟩ } children' :: nodes', k',
      ?_, ?_⟩
    · have hplaced : Element.unplaced { head' with span := ⟨head'.span.start, stop⟩ } =
          head.unplaced := hsame
      simp only [unplacedAll, unplaced, halike, hchildren', hplaced]
    · simpa using Yields.element hread hinside hclose htag hyields

/-- The one element of a template is its root. -/
theorem read_of_yields {source : Text} {head : Element} {children : List Node} {last : Cursor}
    (h : Yields (.start source) [.element head children] last) (hlast : last.rest = []) :
    readPassed source = .ok (.element head children) := by
  rw [readPassed, h, Event.scan_of_end hlast]
  rfl

theorem unplacedAll_eq_singleton {nodes : List Node} {node : Node}
    (h : Node.unplacedAll nodes = Node.unplacedAll [node]) :
    ∃ node', nodes = [node'] ∧ node'.unplaced = node.unplaced := by
  match nodes with
  | [] => simp [Node.unplacedAll] at h
  | [node'] => exact ⟨node', rfl, by simpa [Node.unplacedAll] using h⟩
  | _ :: _ :: _ => simp [Node.unplacedAll] at h

/-- What a canonical element is printed as is read as that element, up to where its parts stand. -/
theorem exists_read_of_prints {head : Element} {children : List Node} {source : Text}
    (h : (Node.element head children).Canonical)
    (hprints : Node.Prints [.element head children] source) :
    ∃ root, readPassed source = .ok root ∧
      root.unplaced = (Node.element head children).unplaced := by
  obtain ⟨nodes', k', halike, hyields⟩ :=
    yields_of_prints hprints ⟨h, by simp, trivial⟩ 0 (.inl rfl)
  obtain ⟨root, rfl, hsame⟩ := unplacedAll_eq_singleton halike
  cases root with
  | element head' children' =>
    rw [List.append_nil] at hyields
    exact ⟨.element head' children', read_of_yields hyields rfl, hsame⟩
  | expression | text | comment => simp [Node.unplaced] at hsame

/-- A tree where every kind of node meets what it could run into: an element inside one of its own
name, a text that ends with a bracket before a closing tag and one that ends with a brace before a
comment, a flag before the end of a void tag, an interpolation with a brace in it. -/
def seams : Node :=
  .element
    ⟨"div", [⟨"a", some "it's", .empty 0⟩, ⟨":b.c", none, .empty 0⟩], false, .empty 0, .empty 0⟩
    [.element ⟨"div", [], false, .empty 0, .empty 0⟩ [.text " x <" (.empty 0)],
      .expression "a \x7d b" (.empty 0), .text "y \x7b" (.empty 0), .comment "- " (.empty 0),
      .element ⟨"br", [⟨"c", none, .empty 0⟩], true, .empty 0, .empty 0⟩ []]

end Template

end Wxml
