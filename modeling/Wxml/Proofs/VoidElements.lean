import Wxml.Proofs.Printing

/-!
# Void elements without a slash

A void element may be written without `/>`, and a closing tag of its own that follows is read with
it.  That closing tag is known by the characters it starts with, so one with a longer name is taken
for it too: `<col>` takes the `</colgroup>` of the element around it.

`Template.read_void_last` says when this happens to the last child of an element, and what becomes
of the element.  `exists_closing_tag_swallowed` is a case.
-/

namespace Wxml

namespace Template

/-- The name of a void element is made of letters. -/
theorem isTagName_of_isVoid {tag : Text} (h : isVoid tag = true) : isTagName tag = true := by
  have hletters : VoidTag.html.all (fun name => !name.isEmpty && name.all Char.isAlpha) = true := by
    decide
  have hname := List.all_eq_true.1 hletters (Text.lower tag) (List.contains_iff_mem.1 h)
  have halpha : ∀ c ∈ tag, c.isAlpha = true := by
    intro c hc
    simp only [Bool.and_eq_true, List.all_eq_true] at hname
    exact isAlpha_of_toLower (hname.2 c.toLower (List.mem_map_of_mem hc))
  cases tag with
  | nil => cases h
  | cons c tag =>
    rw [isTagName, halpha c List.mem_cons_self, Bool.true_and, List.all_eq_true]
    intro d hd
    have hd := halpha d (List.mem_cons_of_mem _ hd)
    simp [Cursor.isTagChar, Char.isAlphanum, hd]

theorem Yields.append {c middle last : Cursor} {nodes more : List Node}
    (h : Yields c nodes middle) (hmore : Yields middle more last) :
    Yields c (nodes ++ more) last := by
  intro before frames
  rw [h, hmore, List.reverse_append, List.append_assoc]

namespace Event

/-- A void tag that is not self-closing is a whole element.  What follows it is skipped like a
closing tag if it starts like one of this element. -/
theorem read_voidTag {head : Element} {attributes : Text} (k : Nat) (rest : Text)
    (hvoid : isVoid head.tag = true) (hopen : head.selfClosing = false)
    (hkeys : ∀ a ∈ head.attributes, Cursor.isAttributeName a.key = true)
    (hdistinct : (head.attributes.map Attribute.key).Nodup)
    (hwritten : Attribute.Written head.attributes attributes) :
    ∃ head' k', head'.unplaced = head.unplaced ∧
      read ⟨k, '<' :: (head.tag ++ (attributes ++ ('>' :: rest)))⟩ =
        .ok (some (.complete (.element head' [])),
          if ("</" : Text) ++ head.tag <+: rest then (⟨k', rest⟩ : Cursor).skipTag
          else ⟨k', rest⟩) := by
  have htag := isTagName_of_isVoid hvoid
  obtain ⟨head', k', hread, hsame, hclosing, halike⟩ :=
    readTag_written false rest k htag hkeys hdistinct hwritten
  have hread' : readTag ⟨k, '<' :: (head.tag ++ (attributes ++ ('>' :: rest)))⟩ =
      .ok (head', ⟨k', rest⟩) := hread
  let last : Cursor :=
    if ("</" : Text) ++ head.tag <+: rest then (⟨k', rest⟩ : Cursor).skipTag else ⟨k', rest⟩
  refine ⟨{ head' with span := last.spanFrom k }, k', ?_,
    read_of_element (startsElement_tag _ htag) ?_⟩
  · simp [Element.unplaced, hsame, hclosing, hopen, halike]
  · rw [readElement, hread']
    simp only [hclosing, hsame, hvoid, Bool.false_eq_true, ↓reduceIte, Cursor.startsWith_iff, last]

theorem read_bareVoidTag {v : Text} (k : Nat) (rest : Text) (hvoid : isVoid v = true) :
    ∃ head k', head.unplaced = (Element.ofTag v).unplaced ∧
      read ⟨k, '<' :: (v ++ '>' :: rest)⟩ =
        .ok (some (.complete (.element head [])),
          if ("</" : Text) ++ v <+: rest then (⟨k', rest⟩ : Cursor).skipTag else ⟨k', rest⟩) :=
  @read_voidTag (.ofTag v) [] k rest hvoid rfl nofun .nil .nil

end Event

/-- The nodes before a void tag, and the element of that tag. -/
theorem yields_void {v x : Text} {children : List Node} (k : Nat) (rest : Text)
    (hvoid : isVoid v = true) (hchildren : Node.CanonicalAll children)
    (hx : Node.Prints children x) :
    ∃ nodes k', Node.unplacedAll nodes =
        Node.unplacedAll (children ++ [.element (.ofTag v) []]) ∧
      Yields ⟨k, x ++ '<' :: (v ++ '>' :: rest)⟩ nodes
        (if ("</" : Text) ++ v <+: rest then (⟨k', rest⟩ : Cursor).skipTag else ⟨k', rest⟩) := by
  have hstops : Stops ('<' :: (v ++ '>' :: rest)) := by
    refine .inr ⟨rfl, ?_⟩
    simp [startsMarkup, startsElement_tag _ (isTagName_of_isVoid hvoid)]
  obtain ⟨nodes, k₁, halike, hyields⟩ := yields_of_prints hx hchildren k hstops
  obtain ⟨head, k', hsame, hread⟩ := Event.read_bareVoidTag k₁ rest hvoid
  refine ⟨nodes ++ [.element head []], k', ?_, hyields.append (.cons hread (.nil _))⟩
  simp only [Node.unplacedAll_eq_map, List.map_append, List.map_singleton, Node.unplaced, hsame,
    List.map_nil] at halike ⊢
  rw [halike]

/-- A closing tag starts like one of `v` exactly if its name does. -/
theorem isPrefix_closing_iff {v name after : Text} (hv : isTagName v = true)
    (hafter : ∀ c, after.head? = some c → Cursor.isTagChar c = false) :
    ("</" : Text) ++ v <+: "</" ++ (name ++ after) ↔ v <+: name := by
  rw [List.prefix_append_right_inj]
  constructor
  · intro h
    refine Text.prefix_of_prefix_append h fun c hc hmem => ?_
    have hchar := isTagChar_of_isTagName hv c hmem
    rw [hafter c hc] at hchar
    cases hchar
  · exact fun h => h.trans (List.prefix_append _ _)

/-- An element of the name `p`, written with the content `x` and a void tag behind that. -/
def withVoidLast (p x v : Text) : Text :=
  '<' :: (p ++ '>' :: (x ++ '<' :: (v ++ '>' :: ("</" ++ (p ++ ['>'])))))

/-- Behind the void tag the closing tag of the element is still ahead, or nothing is. -/
theorem exists_opened_withVoidLast {p v x : Text} {children : List Node} (hp : isTagName p = true)
    (hopen : isVoid p = false) (hraw : isRawText p = false) (hvoid : isVoid v = true)
    (hchildren : Node.CanonicalAll children) (hx : Node.Prints children x) :
    ∃ head nodes inner k, head.unplaced = (Element.ofTag p).unplaced ∧
      Node.unplacedAll nodes = Node.unplacedAll (children ++ [.element (.ofTag v) []]) ∧
      Event.read (.start (withVoidLast p x v)) = .ok (some (.opened head), inner) ∧
      Yields inner nodes ⟨k, if v <+: p then [] else "</" ++ (p ++ ['>'])⟩ := by
  have hcanonical : (Element.ofTag p).Canonical :=
    ⟨hp, hraw, nofun, .nil, nofun, fun h => absurd h (by simp [Element.ofTag, hopen])⟩
  obtain ⟨head, k₁, hsame, hread⟩ := Event.read_tag 0
    (x ++ '<' :: (v ++ '>' :: ("</" ++ (p ++ ['>'])))) hcanonical .nil
  obtain ⟨nodes, k₂, halike, hyields⟩ :=
    yields_void k₁ ("</" ++ (p ++ ['>'])) hvoid hchildren hx
  obtain ⟨span, stop, k₃, hclosing⟩ := Event.readClosing_append k₂ [] hp
  have hskip : Cursor.skipTag ⟨k₂, "</" ++ (p ++ ['>'])⟩ = ⟨k₃, []⟩ := congrArg Prod.snd hclosing
  have htakes : ("</" : Text) ++ v <+: "</" ++ (p ++ ['>']) ↔ v <+: p :=
    isPrefix_closing_iff (isTagName_of_isVoid hvoid) (Text.forall_head?_cons (by decide))
  simp only [htakes, hskip] at hyields
  by_cases hstarts : v <+: p
  · rw [if_pos hstarts] at hyields ⊢
    exact ⟨head, nodes, _, k₃, hsame, halike, hread, hyields⟩
  · rw [if_neg hstarts] at hyields ⊢
    exact ⟨head, nodes, _, k₂, hsame, halike, hread, hyields⟩

/-- A void tag takes the closing tag after it exactly if the name in that starts with its own.  So
an element ends after a void tag as its last child if its name does not start with the name of that
child; otherwise nothing closes it. -/
theorem read_void_last {p v x : Text} {children : List Node} (hp : isTagName p = true)
    (hopen : isVoid p = false) (hraw : isRawText p = false) (hvoid : isVoid v = true)
    (hchildren : Node.CanonicalAll children) (hx : Node.Prints children x)
    (hsize : Text.size (withVoidLast p x v) < Span.offsetLimit) :
    (¬ v <+: p → ∃ root, read (withVoidLast p x v) = .ok root ∧
      root.unplaced =
        (Node.element (.ofTag p) (children ++ [.element (.ofTag v) []])).unplaced) ∧
    (v <+: p → ∃ span, read (withVoidLast p x v) = .error (.unclosedElement p span)) ∧
    ∀ (cut : Span → Text → Option Text) (head : Element) (attributes : Text) (k : Nat)
      (name after : Text), head.tag = v → head.selfClosing = false →
      (∀ a ∈ head.attributes, Cursor.isAttributeName a.key = true) →
      (head.attributes.map Attribute.key).Nodup →
      Attribute.Written head.attributes attributes →
      (∀ c, after.head? = some c → Cursor.isTagChar c = false) →
      ∃ head' k', head'.unplaced = head.unplaced ∧
        Event.readBy cut ⟨k, '<' :: (v ++ (attributes ++ '>' :: ("</" ++ (name ++ after))))⟩ =
          .ok (some (.complete (.element head' [])),
            if v <+: name then (⟨k', "</" ++ (name ++ after)⟩ : Cursor).skipTag
            else ⟨k', "</" ++ (name ++ after)⟩) := by
  obtain ⟨head, nodes, inner, k, hsame, halike, hopened, hinside⟩ :=
    exists_opened_withVoidLast hp hopen hraw hvoid hchildren hx
  have htag : p = head.tag := congrArg Element.tag hsame.symm
  refine ⟨fun hnone => ?_, fun hstarts => ?_, ?_⟩
  · rw [if_neg hnone] at hinside
    obtain ⟨span, stop, k', hclosing⟩ := Event.readClosing_append k [] hp
    have hclose := Event.read_of_closing (c := ⟨k, "</" ++ (p ++ ['>'])⟩) (List.prefix_append _ _)
    rw [hclosing] at hclose
    have hread := read_of_yields (.element hopened hinside hclose htag (.nil _)) rfl
    refine ⟨_, (read_eq_readPassed hsize).trans hread, ?_⟩
    have hplaced : Element.unplaced { head with span := ⟨head.span.start, stop⟩ } =
        (Element.ofTag p).unplaced := hsame
    simp only [Node.unplaced, halike, hplaced]
  · rw [if_pos hstarts] at hinside
    have hscan : Event.scan ⟨k, []⟩ = [] := Event.scan_of_end rfl
    refine ⟨head.span, ?_⟩
    rw [read_eq_readPassed hsize, readPassed, Event.scan_of_read_some hopened, build, hinside,
      hscan, build, ← htag]
  · rintro cut head attributes k name after rfl hclosing hkeys hdistinct hwritten hafter
    obtain ⟨head', k', hsame', hread⟩ := Event.read_voidTag k ("</" ++ (name ++ after)) hvoid
      hclosing hkeys hdistinct hwritten
    simp only [isPrefix_closing_iff (isTagName_of_isVoid hvoid) hafter] at hread
    refine ⟨head', k', hsame', ?_⟩
    rw [Event.readBy_of_markup cut (by
      simp [startsMarkup, startsElement_tag _ (isTagName_of_isVoid hvoid)]), hread]

/-- A line break ends a paragraph. -/
theorem read_void_last_sample : Text.size (withVoidLast "p" "a" "br") < Span.offsetLimit ∧
    ∃ root, read "<p>a<br></p>" = .ok root ∧
      root.unplaced = (Node.element (.ofTag "p")
        [.text "a" (.empty 0), .element (.ofTag "br") []]).unplaced := by
  have hsize : Text.size (withVoidLast "p" "a" "br") < Span.offsetLimit := by decide
  exact ⟨hsize, (@read_void_last "p" "br" "a" [.text "a" (.empty 0)] (by decide) (by decide)
    (by decide) (by decide) ⟨⟨by decide, by decide⟩, by simp, trivial⟩ (.text .nil) hsize).1
    (by decide)⟩

/-- A column alone in its group takes the closing tag of the group. -/
theorem exists_closing_tag_swallowed :
    ∃ (p v x : Text) (children : List Node), isTagName p = true ∧ isVoid p = false ∧
      isRawText p = false ∧ isVoid v = true ∧ p ≠ v ∧ Node.CanonicalAll children ∧
      Node.Prints children x ∧ ∀ root, read (withVoidLast p x v) ≠ .ok root := by
  refine ⟨"colgroup", "col", [], [], by decide, by decide, by decide, by decide, by decide, trivial,
    .nil, ?_⟩
  intro root hread
  have hnone : (read (withVoidLast "colgroup" [] "col")).toOption = none := by decide +kernel
  rw [hread] at hnone
  cases hnone

end Template

end Wxml
