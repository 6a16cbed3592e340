import Wxml.Proofs.Idempotence
import Wxml.Proofs.RenderedTokens

/-!
# Leaving comments out

`Node.withoutComments` is a tree without its comments, where texts that become neighbours are one.
What is rendered without comments is that tree of the translation (`Translates.eq_of_plainAll`).
It is read back as that tree exactly if no two texts became markup when they were joined
(`Node.TextsApart`): all else of a canonical tree does not depend on its comments
(`Node.sound_withoutComments`).
-/

namespace Wxml

open Template

namespace Node

/-! ### Trees without comments -/

/-- A node put before some others: a comment is left out, and a text is joined with one that
follows. -/
def attach : Node → List Node → List Node
  | .comment _ _, nodes => nodes
  | .text content span, .text more stop :: nodes =>
    .text (content ++ more) ⟨span.start, stop.stop⟩ :: nodes
  | node, nodes => node :: nodes

mutual

/-- A tree without the comments in it; texts that become neighbours are joined. -/
def withoutComments : Node → Node
  | .element head children => .element head (withoutCommentsAll children)
  | .expression raw span => .expression raw span
  | .text content span => .text content span
  | .comment content span => .comment content span

def withoutCommentsAll : List Node → List Node
  | [] => []
  | node :: nodes => attach node.withoutComments (withoutCommentsAll nodes)

end

theorem printAll_attach_text (content : Text) (span : Span) (nodes : List Node) :
    printAll (attach (.text content span) nodes) = content ++ printAll nodes := by
  rcases nodes with _ | ⟨next, nodes⟩
  · rfl
  · cases next with
    | text more stop => simp [attach, printAll, print]
    | element | expression | comment => rfl

theorem unplacedAll_attach (node : Node) (nodes : List Node) :
    unplacedAll (attach node nodes) = attach node.unplaced (unplacedAll nodes) := by
  cases node with
  | text content span =>
    rcases nodes with _ | ⟨next, nodes⟩
    · rfl
    · cases next with
      | text | element | expression | comment => rfl
  | element | expression | comment => rfl

mutual

theorem withoutComments_unplaced :
    ∀ node : Node, node.unplaced.withoutComments = node.withoutComments.unplaced
  | .element head children => by
    rw [unplaced, withoutComments, withoutComments, unplaced, withoutCommentsAll_unplaced children]
  | .expression _ _ => rfl
  | .text _ _ => rfl
  | .comment _ _ => rfl

theorem withoutCommentsAll_unplaced : ∀ nodes : List Node,
    withoutCommentsAll (unplacedAll nodes) = unplacedAll (withoutCommentsAll nodes)
  | [] => rfl
  | node :: nodes => by
    rw [unplacedAll, withoutCommentsAll, withoutCommentsAll, unplacedAll_attach,
      withoutComments_unplaced node, withoutCommentsAll_unplaced nodes]

end

theorem size_printAll_attach_le (node : Node) (nodes : List Node) :
    Text.size (printAll (attach node nodes)) ≤
      Text.size node.print + Text.size (printAll nodes) := by
  cases node with
  | comment content span => exact Nat.le_add_left _ _
  | text content span => rw [printAll_attach_text, Text.size_append, print]
  | element | expression => rw [attach, printAll, Text.size_append] <;> simp

mutual

/-- A tree without its comments is not printed longer. -/
theorem size_print_withoutComments_le :
    ∀ node : Node, Text.size node.withoutComments.print ≤ Text.size node.print
  | .element head children => by
    have hchildren := size_printAll_withoutCommentsAll_le children
    rw [withoutComments, print, print]
    split
    · exact Nat.le_refl _
    · simp only [Text.size_append]
      omega
  | .expression _ _ => Nat.le_refl _
  | .text _ _ => Nat.le_refl _
  | .comment _ _ => Nat.le_refl _

theorem size_printAll_withoutCommentsAll_le : ∀ nodes : List Node,
    Text.size (printAll (withoutCommentsAll nodes)) ≤ Text.size (printAll nodes)
  | [] => Nat.le_refl _
  | node :: nodes => by
    have hfirst := size_print_withoutComments_le node
    have hothers := size_printAll_withoutCommentsAll_le nodes
    have hattach := size_printAll_attach_le node.withoutComments (withoutCommentsAll nodes)
    rw [withoutCommentsAll, printAll, Text.size_append]
    omega

end

/-! ### What is rendered without comments -/

end Node

namespace Rendering

theorem plainAll_cons_ok {comments : Bool} {node : Node} {nodes : List Node} {w : Text}
    (h : plainAll comments (node :: nodes) = .ok w) :
    ∃ first others, plain comments node = .ok first ∧ plainAll comments nodes = .ok others ∧
      w = first ++ others := by
  rw [plainAll] at h
  cases hfirst : plain comments node with
  | error fault => simp [hfirst] at h
  | ok first =>
    cases hothers : plainAll comments nodes with
    | error fault => simp [hfirst, hothers] at h
    | ok others =>
      simp only [hfirst, hothers, Except.ok.injEq] at h
      exact ⟨first, others, rfl, rfl, h.symm⟩

end Rendering

open Rendering (plain plainAll plainAll_cons_ok)

/-- What an element puts into itself is before its children, without comments as with them. -/
theorem Node.withoutCommentsAll_inserted (e : Element) (nodes : List Node) :
    withoutCommentsAll (e.inserted?.toList.map (.expression · (.empty 0)) ++ nodes) =
      e.inserted?.toList.map (.expression · (.empty 0)) ++ withoutCommentsAll nodes := by
  cases e.inserted? with
  | none => rfl
  | some raw => rfl

theorem Translates.eq_of_plainAll {nodes nodes' : List Node} (h : Translates nodes nodes') :
    ∀ {w : Text}, plainAll false nodes = .ok w →
      w = Node.printAll (Node.withoutCommentsAll nodes') := by
  induction h with
  | nil =>
    intro w hw
    cases hw
    rfl
  | text rest ih =>
    intro w hw
    obtain ⟨first, others, hfirst, hothers, rfl⟩ := plainAll_cons_ok hw
    cases hfirst
    rw [ih hothers, Node.withoutCommentsAll, Node.withoutComments, Node.printAll_attach_text]
  | comment rest ih =>
    intro w hw
    obtain ⟨first, others, hfirst, hothers, rfl⟩ := plainAll_cons_ok hw
    cases hfirst
    exact ih hothers
  | @expression raw span nodes nodes' noFilter rest ih =>
    intro w hw
    obtain ⟨first, others, hfirst, hothers, rfl⟩ := plainAll_cons_ok hw
    have hprint : first = (Node.expression raw span).print := by
      simpa [plain, noFilter, Node.print, eq_comm] using hfirst
    rw [ih hothers, hprint]
    rfl
  | @void e children nodes nodes' tag ps becomes properties isVoid rest ih =>
    intro w hw
    obtain ⟨first, others, hfirst, hothers, rfl⟩ := plainAll_cons_ok hw
    have hprint : first = (Node.element (.ofProperties tag ps) []).print := by
      obtain ⟨tag', ps', htag, hps, hfirst⟩ := Rendering.plain_element_ok hfirst
      cases becomes.symm.trans htag
      cases properties.symm.trans hps
      obtain ⟨-, rfl⟩ := hfirst.resolve_right (by simp [Element.isVoid_eq becomes, isVoid])
      rw [Node.print, Rendering.markup_ofProperties]
      simp [Element.ofProperties, isVoid, tagEnd]
    rw [ih hothers, hprint]
    rfl
  | @element e children children' nodes nodes' tag ps becomes properties notVoid inside rest
      ihInside ih =>
    intro w hw
    obtain ⟨first, others, hfirst, hothers, rfl⟩ := plainAll_cons_ok hw
    obtain ⟨tag', ps', htag, hps, hfirst⟩ := Rendering.plain_element_ok hfirst
    cases becomes.symm.trans htag
    cases properties.symm.trans hps
    obtain ⟨-, content, hcontent, rfl⟩ :=
      hfirst.resolve_left (by simp [Element.isVoid_eq becomes, notVoid])
    have hprint : "<" ++ tag ++ ps.markup ++ ">" ++ ps.inserted.getD [] ++ content ++ "</" ++ tag ++
        ">" = (Node.element (.ofProperties tag ps) (Node.withoutCommentsAll
          (e.inserted?.toList.map (.expression · (.empty 0)) ++ children'))).print := by
      rw [Node.print, Rendering.markup_ofProperties, Node.withoutCommentsAll_inserted,
        Node.printAll_append, Rendering.printAll_inserted, ← ihInside hcontent,
        ← Element.inserted_eq properties]
      simp [Element.ofProperties, notVoid, tagEnd]
    rw [ih hothers, hprint]
    rfl

/-! ### What comments are no part of -/

namespace Node

mutual

/-- A tree that is canonical but for its texts: what is not text ends where it should. -/
def Sound : Node → Prop
  | .element head children =>
    head.Canonical ∧ (head.selfClosing = true → children = []) ∧ SoundAll children
  | .expression raw _ => ClearOfBraces raw
  | .text content _ => Text.allBlank content = false
  | .comment content _ => ClearOfComments content

def SoundAll : List Node → Prop
  | [] => True
  | node :: nodes => node.Sound ∧ SoundAll nodes

end

mutual

/-- No markup starts in the texts of a tree, nor where one of them ends. -/
def TextsApart : Node → Prop
  | .element _ children => TextsApartAll children
  | .expression _ _ => True
  | .text content _ => ClearOfMarkup content
  | .comment _ _ => True

def TextsApartAll : List Node → Prop
  | [] => True
  | node :: nodes =>
    node.TextsApart ∧ (∀ next ∈ nodes.head?, Seam node next) ∧ TextsApartAll nodes

end

mutual

def decidableTextsApart : (node : Node) → Decidable node.TextsApart
  | .element _ children => decidableTextsApartAll children
  | .expression _ _ => inferInstanceAs (Decidable True)
  | .text content _ => inferInstanceAs (Decidable (ClearOfMarkup content))
  | .comment _ _ => inferInstanceAs (Decidable True)

def decidableTextsApartAll : (nodes : List Node) → Decidable (TextsApartAll nodes)
  | [] => inferInstanceAs (Decidable True)
  | node :: nodes =>
    have := decidableTextsApart node
    have := decidableTextsApartAll nodes
    inferInstanceAs (Decidable (node.TextsApart ∧ (∀ next ∈ nodes.head?, Seam node next) ∧
      TextsApartAll nodes))

end

instance : DecidablePred TextsApart := decidableTextsApart

mutual

theorem canonical_iff : ∀ node : Node, node.Canonical ↔ node.Sound ∧ node.TextsApart
  | .element head children => by
    rw [Canonical, Sound, TextsApart, canonicalAll_iff children]
    constructor
    · rintro ⟨hhead, hclosed, hsound, happart⟩
      exact ⟨⟨hhead, hclosed, hsound⟩, happart⟩
    · rintro ⟨⟨hhead, hclosed, hsound⟩, happart⟩
      exact ⟨hhead, hclosed, hsound, happart⟩
  | .expression _ _ => (and_iff_left trivial).symm
  | .text _ _ => Iff.rfl
  | .comment _ _ => (and_iff_left trivial).symm

theorem canonicalAll_iff : ∀ nodes : List Node,
    CanonicalAll nodes ↔ SoundAll nodes ∧ TextsApartAll nodes
  | [] => (and_iff_left trivial).symm
  | node :: nodes => by
    rw [CanonicalAll, SoundAll, TextsApartAll, canonical_iff node, canonicalAll_iff nodes]
    constructor
    · rintro ⟨⟨hnode, hapart⟩, hseam, hnodes, haparts⟩
      exact ⟨⟨hnode, hnodes⟩, hapart, hseam, haparts⟩
    · rintro ⟨⟨hnode, hnodes⟩, hapart, hseam, haparts⟩
      exact ⟨⟨hnode, hapart⟩, hseam, hnodes, haparts⟩

end

theorem soundAll_attach {node : Node} {nodes : List Node} (h : node.Sound)
    (hnodes : SoundAll nodes) : SoundAll (attach node nodes) := by
  cases node with
  | comment => exact hnodes
  | text content span =>
    rcases nodes with _ | ⟨next, nodes⟩
    · exact ⟨h, hnodes⟩
    · cases next with
      | text more stop =>
        have hblank : Text.allBlank content = false := h
        refine ⟨?_, hnodes.2⟩
        rw [Sound, Text.allBlank_append, hblank, Bool.false_and]
      | element | expression | comment => exact ⟨h, hnodes⟩
  | element | expression => exact ⟨h, hnodes⟩

mutual

theorem sound_withoutComments : ∀ {node : Node}, node.Sound → node.withoutComments.Sound
  | .element head children, h => by
    obtain ⟨hhead, hclosed, hchildren⟩ := h
    refine ⟨hhead, fun hself => ?_, soundAll_withoutComments hchildren⟩
    rw [hclosed hself]
    rfl
  | .expression _ _, h => h
  | .text _ _, h => h
  | .comment _ _, h => h

theorem soundAll_withoutComments : ∀ {nodes : List Node}, SoundAll nodes →
    SoundAll (withoutCommentsAll nodes)
  | [], _ => trivial
  | _ :: _, h => soundAll_attach (sound_withoutComments h.1) (soundAll_withoutComments h.2)

end

/-! ### Reading back -/

theorem seam_unplaced (node next : Node) : Seam node.unplaced next.unplaced ↔ Seam node next := by
  cases node <;> cases next <;> rfl

theorem isChain_map_unplaced (nodes : List Node) :
    (nodes.map unplaced).IsChain Seam ↔ nodes.IsChain Seam := by
  simp only [List.isChain_map, seam_unplaced]

mutual

theorem textsApart_unplaced : ∀ node : Node, node.unplaced.TextsApart ↔ node.TextsApart
  | .element _ children => textsApartAll_unplaced children
  | .expression _ _ => Iff.rfl
  | .text _ _ => Iff.rfl
  | .comment _ _ => Iff.rfl

theorem textsApartAll_unplaced : ∀ nodes : List Node,
    TextsApartAll (unplacedAll nodes) ↔ TextsApartAll nodes
  | [] => Iff.rfl
  | node :: nodes => by
    have hseam : (∀ next ∈ (unplacedAll nodes).head?, Seam node.unplaced next) ↔
        ∀ next ∈ nodes.head?, Seam node next := by
      rcases nodes with _ | ⟨next, nodes⟩
      · simp [unplacedAll]
      · simp [unplacedAll, seam_unplaced]
    rw [unplacedAll, TextsApartAll, TextsApartAll, textsApart_unplaced node, hseam,
      textsApartAll_unplaced nodes]

end

/-- A tree as it can be read is one wherever its parts stand. -/
theorem Parsed.of_unplaced_eq {node : Node} (h : node.Parsed) :
    ∀ {other : Node}, other.unplaced = node.unplaced → other.Parsed := by
  induction h with
  | text notBlank clear =>
    intro other heq
    cases other with
    | text content span =>
      cases heq
      exact .text notBlank clear
    | element | expression | comment => cases heq
  | comment clear =>
    intro other heq
    cases other with
    | comment content span =>
      cases heq
      exact .comment clear
    | element | expression | text => cases heq
  | expression clear =>
    intro other heq
    cases other with
    | expression raw span =>
      cases heq
      exact .expression clear
    | element | text | comment => cases heq
  | @element head children named inside seams ih =>
    intro other heq
    cases other with
    | element head' children' =>
      rw [unplaced, unplaced, element.injEq, unplacedAll_eq_map, unplacedAll_eq_map] at heq
      obtain ⟨hhead, hchildren⟩ := heq
      have htag : head'.unplaced.tag = head.unplaced.tag := by rw [hhead]
      have hattributes : head'.attributes.map Attribute.unplaced =
          head.attributes.map Attribute.unplaced := congrArg Element.attributes hhead
      refine .element (fun a ha => ?_) (fun hraw node hnode => ?_) (fun hraw => ?_)
      · obtain ⟨b, hb, hkey⟩ := List.mem_map.1 (hattributes ▸ List.mem_map_of_mem ha)
        have hkey : b.unplaced.key = a.unplaced.key := by rw [hkey]
        exact hkey ▸ named b hb
      · obtain ⟨other, hother, hsame⟩ := List.mem_map.1 (hchildren ▸ List.mem_map_of_mem hnode)
        exact ih (htag ▸ hraw) other hother hsame.symm
      · have hchain := seams (htag ▸ hraw)
        rw [← isChain_map_unplaced] at hchain ⊢
        rwa [hchildren]
    | expression | text | comment => cases heq

mutual

theorem textsApart_of_parsed : ∀ {node : Node}, node.Sound → node.Parsed → node.TextsApart
  | .element head children, hsound, hparsed => by
    obtain ⟨hhead, -, hchildren⟩ := hsound
    cases hparsed with
    | element named inside seams =>
      exact textsApartAll_of_parsed hchildren (inside hhead.notRaw) (seams hhead.notRaw)
  | .expression _ _, _, _ => trivial
  | .text content span, _, hparsed => by
    cases hparsed with
    | text notBlank clear => exact clear
  | .comment _ _, _, _ => trivial

theorem textsApartAll_of_parsed : ∀ {nodes : List Node}, SoundAll nodes →
    (∀ node ∈ nodes, node.Parsed) → nodes.IsChain Seam → TextsApartAll nodes
  | [], _, _, _ => trivial
  | node :: nodes, hsound, hparsed, hchain => by
    rw [List.isChain_cons] at hchain
    rw [List.forall_mem_cons] at hparsed
    exact ⟨textsApart_of_parsed hsound.1 hparsed.1, hchain.1,
      textsApartAll_of_parsed hsound.2 hparsed.2 hchain.2⟩

end

end Node

namespace Rendering

/-- A canonical tree without its comments is read back exactly if its texts stay apart. -/
theorem exists_read_without_comments_iff {head : Element} {children : List Node} {back : Node}
    (hsize : Text.size (Node.element head children).print < Span.offsetLimit)
    (h : (Node.element head children).Canonical)
    (hback : back.unplaced = (Node.element head children).unplaced) :
    (∃ back', Template.read (Node.element head children).withoutComments.print = .ok back' ∧
        back'.unplaced = back.withoutComments.unplaced) ↔
      back.withoutComments.TextsApart := by
  have hsame : back.withoutComments.unplaced =
      (Node.element head children).withoutComments.unplaced := by
    rw [← Node.withoutComments_unplaced, hback, Node.withoutComments_unplaced]
  have hsound := Node.sound_withoutComments ((Node.canonical_iff _).1 h).1
  have hapart : back.withoutComments.TextsApart ↔
      (Node.element head children).withoutComments.TextsApart := by
    rw [← Node.textsApart_unplaced, hsame, Node.textsApart_unplaced]
  rw [hapart, hsame, Template.read_eq_readPassed
    ((Node.size_print_withoutComments_le _).trans_lt hsize)]
  constructor
  · rintro ⟨back', hread, hsame'⟩
    have hparsed := (Template.parsed_of_read hread).1
    exact Node.textsApart_of_parsed hsound (hparsed.of_unplaced_eq hsame'.symm)
  · intro htexts
    have hcanonical := (Node.canonical_iff _).2 ⟨hsound, htexts⟩
    have hprints := Node.prints_print _ hcanonical .nil
    rw [List.append_nil] at hprints
    exact Template.exists_read_of_prints hcanonical hprints

/-- A template that is rendered with comments is rendered without them, as the print of its
translation without comments.  Where that translation is canonical, as it is for lasting elements,
the rendering with comments is read back as it, and the one without comments as the same without
comments, exactly if no markup starts in or right after a text that is left then.  What is read has
offsets of 32 bits. -/
theorem ofSource_without_comments {source w : Text} (h : ofSource true source = .ok w) :
    ∃ root t, Template.read source = .ok root ∧ Translates [root] [t] ∧ t.print = w ∧
      ofSource false source = .ok t.withoutComments.print ∧
      (Text.size source < Span.offsetLimit → (∀ node ∈ visited root, node.Lasting) →
        t.Canonical) ∧
      (Text.size w < Span.offsetLimit → t.Canonical →
        ∃ back, Template.read w = .ok back ∧ back.unplaced = t.unplaced ∧
          ((∃ back', Template.read t.withoutComments.print = .ok back' ∧
              back'.unplaced = back.withoutComments.unplaced) ↔
            back.withoutComments.TextsApart)) := by
  unfold ofSource at h ⊢
  cases hread : Template.read source with
  | error fault => simp [hread] at h
  | ok root =>
    simp only [hread] at h ⊢
    obtain ⟨head, children, rfl⟩ := Template.exists_element_of_read hread
    obtain ⟨w₀, hw₀⟩ := (ofNode_ok_iff false _).2 ((ofNode_ok_iff true _).1 ⟨w, h⟩)
    rw [ofNode_eq_plain] at h
    obtain ⟨t, htranslates, hprint⟩ := exists_translation _ h .nil
    obtain ⟨head', children', rfl⟩ : ∃ head' children', t = .element head' children' := by
      cases htranslates <;> exact ⟨_, _, rfl⟩
    refine ⟨_, _, rfl, htranslates, hprint, ?_, fun hsize hlasting => ?_,
      fun hsize hcanonical => ?_⟩
    · have hall : plainAll false [.element head children] = .ok (w₀ ++ []) := by
        rw [ofNode_eq_plain] at hw₀
        rw [plainAll, hw₀]
        rfl
      have hplain := htranslates.eq_of_plainAll hall
      rw [List.append_nil] at hplain
      rw [hw₀, hplain]
      exact congrArg Except.ok (List.append_nil _)
    · have hparsed := (Template.parsed_of_read (Template.read_eq_readPassed hsize ▸ hread)).1
      have hall : Node.LastingAll [.element head children] := by
        simpa [Node.LastingAll, visitedAll] using hlasting
      exact (htranslates.canonical hall (by simpa using hparsed) (.singleton _)).1
    · have hprints := Node.prints_print _ hcanonical .nil
      rw [hprint, List.append_nil] at hprints
      obtain ⟨back, hback, hsame⟩ := Template.exists_read_of_prints hcanonical hprints
      exact ⟨back, (Template.read_eq_readPassed hsize).trans hback, hsame,
        exists_read_without_comments_iff (hprint ▸ hsize) hcanonical hsame⟩

/-- A template with a comment between two texts, one before an interpolation, and one at the end. -/
def commentedSample : Text :=
  "<div>a <!-- b -->c<!--d-->{{ e }}<p><!-- f --></p></div>"

theorem ofSource_without_comments_sample :
    ∃ w w₀ back back', Text.size commentedSample < Span.offsetLimit ∧
      Text.size w < Span.offsetLimit ∧ ofSource true commentedSample = .ok w ∧
      ofSource false commentedSample = .ok w₀ ∧ Template.read w = .ok back ∧
      Template.read w₀ = .ok back' ∧ back'.unplaced = back.withoutComments.unplaced := by
  have hsize : Text.size commentedSample < Span.offsetLimit := by decide +kernel
  have hsome : ∃ w ∈ (ofSource true commentedSample).toOption, Text.size w < Span.offsetLimit ∧
      ∃ back ∈ (Template.read w).toOption, back.withoutComments.TextsApart := by
    decide +kernel
  have hlasting : ∀ root ∈ (Template.read commentedSample).toOption,
      ∀ node ∈ visited root, node.Lasting := by
    decide +kernel
  obtain ⟨w, hw, hsize', back, hback, hapart⟩ := hsome
  have h : ofSource true commentedSample = .ok w := eq_ok_of_toOption hw
  obtain ⟨root, t, hroot, -, -, hwithout, hcanonical, hread⟩ := ofSource_without_comments h
  have ht : t.Canonical := hcanonical hsize (hlasting root (by rw [hroot]; rfl))
  obtain ⟨again, hagain, -, hiff⟩ := hread hsize' ht
  cases hagain.symm.trans (eq_ok_of_toOption hback)
  obtain ⟨back', hback', hsame⟩ := hiff.2 hapart
  exact ⟨w, _, _, back', hsize, hsize', h, hwithout, hagain, hback', hsame⟩

/-- A template whose rendering without comments is not that with comments, less the comments. -/
def CommentsMatter (source : Text) : Prop :=
  ∃ w w₀ back, ofSource true source = .ok w ∧ ofSource false source = .ok w₀ ∧
    Template.read w = .ok back ∧
    ¬ ∃ back', Template.read w₀ = .ok back' ∧ back'.unplaced = back.withoutComments.unplaced

theorem commentsMatter_of_print {source w w₀ : Text}
    (hw : (ofSource true source).toOption = some w)
    (hw₀ : (ofSource false source).toOption = some w₀)
    (h : ∃ back ∈ (Template.read w).toOption, ∀ back' ∈ (Template.read w₀).toOption,
      back'.print ≠ back.withoutComments.print) : CommentsMatter source := by
  obtain ⟨back, hback, hprint⟩ := h
  refine ⟨w, w₀, back, eq_ok_of_toOption hw, eq_ok_of_toOption hw₀, eq_ok_of_toOption hback, ?_⟩
  rintro ⟨back', hread, hsame⟩
  apply hprint back' (by rw [hread]; rfl)
  rw [← Node.print_unplaced, hsame, Node.print_unplaced]

/-- A comment can keep two texts apart that are the start of a tag together, and it can be part of
an expression that is put in. -/
theorem exists_comments_matter :
    CommentsMatter "<p>a<<!---->b</p>" ∧
      CommentsMatter "<p v-text=\"\x7d\x7d<!---->\x7b\x7b\"/>" := by
  have hjoined : (ofSource true "<p>a<<!---->b</p>").toOption =
      some ("<view>a<<!---->b</view>" : Text) := by decide +kernel
  have hinserted : (ofSource true "<p v-text=\"\x7d\x7d<!---->\x7b\x7b\"/>").toOption =
      some ("<view>\x7b\x7b\x7d\x7d<!---->\x7b\x7b\x7d\x7d</view>" : Text) := by
    decide +kernel
  have hjoined₀ : (ofSource false "<p>a<<!---->b</p>").toOption =
      some ("<view>a<b</view>" : Text) := by decide +kernel
  have hinserted₀ : (ofSource false "<p v-text=\"\x7d\x7d<!---->\x7b\x7b\"/>").toOption =
      some ("<view>\x7b\x7b\x7d\x7d<!---->\x7b\x7b\x7d\x7d</view>" : Text) := by
    decide +kernel
  exact ⟨commentsMatter_of_print hjoined hjoined₀ (by decide +kernel),
    commentsMatter_of_print hinserted hinserted₀ (by decide +kernel)⟩

end Rendering

end Wxml
