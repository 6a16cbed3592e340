import Mathlib.Data.List.Forall2
import Wxml.Rendering

/-!
# The traversal of a template and its open tags

`Rendering.write` finds the tag to close by a search on the stack of open tags.  This file compares
it with recursion on the tree alone, which knows the tag to close from the element it is in and has
no stack: `plain` is the text, and `trail` the steps with the tags of the elements around each node.

* `write_eq`: whatever is open, a node is written as `plain` says in the steps of `trail`, and the
  stack is left as it was;
* `Step.Fits` is the invariant of a step: the open tags are exactly those of the elements around the
  place it is made at, and a tag that is closed is the innermost one;
* `ofNode_eq_plain_and_consistent` puts the two together.
-/

namespace Wxml

namespace Rendering

/-! ### Rendering without a stack -/

mutual

/-- What a node is written as, by recursion on the tree alone. -/
def plain (comments : Bool) : Node → Except Fault Text
  | .text content _ => .ok content
  | .comment content _ => .ok (if comments then "<!--" ++ content ++ "-->" else [])
  | .expression raw span =>
    if Expression.hasFilter raw then .error (.expression raw .filter span)
    else .ok ("\x7b\x7b" ++ raw ++ "\x7d\x7d")
  | .element head children =>
    match Vocabulary.destination head with
    | .error fault => .error fault
    | .ok tag =>
      match Properties.ofAttributes head.attributes with
      | .error fault => .error fault
      | .ok ps =>
        if Vocabulary.isVoid head.tag || Vocabulary.isVoid tag then
          if ps.inserted.isSome then .error (.directive "v-text" (.voidElement tag) (textSpan head))
          else .ok ("<" ++ tag ++ ps.markup ++ " />")
        else
          match plainAll comments children with
          | .error fault => .error fault
          | .ok content =>
            .ok ("<" ++ tag ++ ps.markup ++ ">" ++ ps.inserted.getD [] ++ content ++
              "</" ++ tag ++ ">")

/-- What some nodes are written as, one after another. -/
def plainAll (comments : Bool) : List Node → Except Fault Text
  | [] => .ok []
  | node :: nodes =>
    match plain comments node with
    | .error fault => .error fault
    | .ok first =>
      match plainAll comments nodes with
      | .error fault => .error fault
      | .ok others => .ok (first ++ others)

end

/-! ### The start of an element -/

/-- What the start of an element says about its tag. -/
theorem opening_ok {e : Element} {start : Opening} (h : opening e = .ok start) :
    Vocabulary.destination e = .ok start.tag ∧
      start.isVoid = (Vocabulary.isVoid e.tag || Vocabulary.isVoid start.tag) := by
  unfold opening at h
  split at h
  · simp at h
  · rename_i tag htag
    split at h
    · simp at h
    · simp only at h
      split at h
      · rename_i hvoid
        split at h
        · simp at h
        · cases h
          exact ⟨htag, hvoid.symm⟩
      · rename_i hvoid
        cases h
        exact ⟨htag, (Bool.eq_false_iff.2 hvoid).symm⟩

/-- The plain rendering of an element, from its start. -/
theorem plain_element (comments : Bool) (head : Element) (children : List Node) :
    plain comments (.element head children) =
      match opening head with
      | .error fault => .error fault
      | .ok start =>
        if start.isVoid then .ok start.markup
        else
          match plainAll comments children with
          | .error fault => .error fault
          | .ok content => .ok (start.markup ++ content ++ ("</" ++ start.tag ++ ">")) := by
  rw [plain, opening]
  cases Vocabulary.destination head with
  | error fault => rfl
  | ok tag =>
    cases Properties.ofAttributes head.attributes with
    | error fault => rfl
    | ok ps =>
      by_cases hvoid : Vocabulary.isVoid head.tag || Vocabulary.isVoid tag
      · simp only [hvoid, ↓reduceIte]
        split <;> rfl
      · simp only [hvoid, Bool.false_eq_true, ↓reduceIte]
        cases plainAll comments children with
        | error fault => rfl
        | ok content => simp [List.append_assoc]

/-! ### The stack is left as it was -/

theorem close_push (opened : OpenTags) (tag : Text) :
    (opened.push tag).close tag = (.closed 0, opened) := by
  simp [OpenTags.close, OpenTags.push, OpenTags.find?]

mutual

/-- The steps of a rendering, by recursion on the tree alone; `tags` are those of the elements
around the node, the innermost first.  Nothing follows a fault. -/
def trail (comments : Bool) (tags : List Text) : Node → List Step
  | .element head children =>
    .visit (.element head children) ⟨tags⟩ ::
      match opening head with
      | .error _ => []
      | .ok start =>
        if start.isVoid then []
        else
          .push start.tag ⟨start.tag :: tags⟩ ::
            (trailAll comments (start.tag :: tags) children ++
              match plainAll comments children with
              | .error _ => []
              | .ok _ => [.close start.tag ⟨start.tag :: tags⟩ (.closed 0) ⟨tags⟩])
  | node => [.visit node ⟨tags⟩]

/-- The steps of rendering some nodes, one after another. -/
def trailAll (comments : Bool) (tags : List Text) : List Node → List Step
  | [] => []
  | node :: nodes =>
    trail comments tags node ++
      match plain comments node with
      | .error _ => []
      | .ok _ => trailAll comments tags nodes

end

mutual

/-- A node is written as by plain recursion, and the stack is afterwards what it was before. -/
theorem write_eq (comments : Bool) : ∀ (node : Node) (opened : OpenTags),
    write comments node opened =
      ⟨trail comments opened.entries node, (plain comments node).map (·, opened)⟩
  | .text _ _, _ => rfl
  | .comment _ _, _ => rfl
  | .expression raw span, opened => by
    rw [write, trail, plain, rejectFilter]
    · by_cases hfilter : Expression.hasFilter raw <;> simp [hfilter, Except.map, interpolate]
    · simp
  | .element head children, opened => by
    rw [write, trail, plain_element]
    cases opening head with
    | error fault => rfl
    | ok start =>
      by_cases hvoid : start.isVoid
      · simp [hvoid, Except.map]
      · simp only [hvoid, Bool.false_eq_true, ↓reduceIte,
          writeAll_eq comments children (opened.push start.tag)]
        cases plainAll comments children with
        | error fault => simp [Except.map, OpenTags.push]
        | ok content =>
          simp only [Except.map, close_push, closing]
          simp [OpenTags.push]

theorem writeAll_eq (comments : Bool) : ∀ (nodes : List Node) (opened : OpenTags),
    writeAll comments nodes opened =
      ⟨trailAll comments opened.entries nodes, (plainAll comments nodes).map (·, opened)⟩
  | [], _ => rfl
  | node :: nodes, opened => by
    rw [writeAll, trailAll, plainAll, write_eq comments node opened]
    cases plain comments node with
    | error fault => simp [Except.map]
    | ok first =>
      simp only [Except.map]
      rw [writeAll_eq comments nodes opened]
      cases plainAll comments nodes <;> rfl

end

theorem ofNode_eq_plain (comments : Bool) (root : Node) :
    ofNode comments root = plain comments root := by
  rw [ofNode, write_eq]
  cases plain comments root <;> rfl

/-! ### What is open at each step -/

/-- A node of the tree `root`, with the elements around it, the innermost first. -/
inductive Around (root : Node) : List Element → Node → Prop
  | root : Around root [] root
  | child {elements : List Element} {head : Element} {children : List Node} {node : Node}
      (parent : Around root elements (.element head children)) (mem : node ∈ children) :
      Around root (head :: elements) node

/-- An element is written with a tag and is not void. -/
structure OpenedAs (tag : Text) (e : Element) : Prop where
  destination : Vocabulary.destination e = .ok tag
  sourceNotVoid : Vocabulary.isVoid e.tag = false
  notVoid : Vocabulary.isVoid tag = false

/-- The open tags are exactly those of some elements. -/
def HoldsTagsOf (opened : OpenTags) (elements : List Element) : Prop :=
  List.Forall₂ OpenedAs opened.entries elements

/-- A step fits the tree: what is open are the tags of the elements around the place it is made at.
A tag that is closed is the innermost one. -/
inductive Step.Fits (root : Node) : Step → Prop
  | visit {node : Node} {opened : OpenTags} {elements : List Element}
      (place : Around root elements node) (openAround : HoldsTagsOf opened elements) :
      Fits root (.visit node opened)
  | push {tag : Text} {opened : OpenTags} {elements : List Element} {head : Element}
      {children : List Node} (place : Around root elements (.element head children))
      (writtenAs : OpenedAs tag head) (openInside : HoldsTagsOf opened (head :: elements)) :
      Fits root (.push tag opened)
  | close {tag : Text} {before after : OpenTags} {elements : List Element} {head : Element}
      {children : List Node} (place : Around root elements (.element head children))
      (writtenAs : OpenedAs tag head) (openInside : HoldsTagsOf before (head :: elements))
      (openAround : HoldsTagsOf after elements) :
      Fits root (.close tag before (.closed 0) after)

theorem opened_as {e : Element} {start : Opening} (h : opening e = .ok start)
    (hvoid : ¬ start.isVoid = true) : OpenedAs start.tag e := by
  obtain ⟨hdestination, hmeans⟩ := opening_ok h
  rw [Bool.not_eq_true] at hvoid
  rw [hvoid, eq_comm, Bool.or_eq_false_iff] at hmeans
  exact ⟨hdestination, hmeans.1, hmeans.2⟩

mutual

/-- The steps of rendering a node fit the tree it stands in. -/
theorem fits_of_mem_trail {comments : Bool} {root : Node} : ∀ (node : Node) {tags : List Text}
    {elements : List Element}, Around root elements node → List.Forall₂ OpenedAs tags elements →
    ∀ step ∈ trail comments tags node, step.Fits root
  | .text content span, tags, elements, place, htags, step, hstep => by
    rw [List.mem_singleton.1 hstep]
    exact .visit place htags
  | .comment content span, tags, elements, place, htags, step, hstep => by
    rw [List.mem_singleton.1 hstep]
    exact .visit place htags
  | .expression raw span, tags, elements, place, htags, step, hstep => by
    rw [List.mem_singleton.1 hstep]
    exact .visit place htags
  | .element head children, tags, elements, place, htags, step, hstep => by
    rw [trail, List.mem_cons] at hstep
    rcases hstep with rfl | hstep
    · exact .visit place htags
    cases hopen : opening head with
    | error fault =>
      rw [hopen] at hstep
      cases hstep
    | ok start =>
      simp only [hopen] at hstep
      split at hstep
      · cases hstep
      rename_i hvoid
      have has := opened_as hopen hvoid
      have hinside : List.Forall₂ OpenedAs (start.tag :: tags) (head :: elements) :=
        .cons has htags
      rw [List.mem_cons, List.mem_append] at hstep
      rcases hstep with rfl | hstep | hstep
      · exact .push place has hinside
      · exact fits_of_mem_trailAll children (fun child hchild => .child place hchild) hinside step
          hstep
      · cases hall : plainAll comments children with
        | error fault =>
          rw [hall] at hstep
          cases hstep
        | ok content =>
          rw [hall, List.mem_singleton] at hstep
          exact hstep ▸ .close place has hinside htags

theorem fits_of_mem_trailAll {comments : Bool} {root : Node} : ∀ (nodes : List Node)
    {tags : List Text} {elements : List Element}, (∀ node ∈ nodes, Around root elements node) →
    List.Forall₂ OpenedAs tags elements →
    ∀ step ∈ trailAll comments tags nodes, step.Fits root
  | [], tags, elements, places, htags, step, hstep => by cases hstep
  | node :: nodes, tags, elements, places, htags, step, hstep => by
    rw [trailAll, List.mem_append] at hstep
    rcases hstep with hstep | hstep
    · exact fits_of_mem_trail node (places node List.mem_cons_self) htags step hstep
    · cases hplain : plain comments node with
      | error fault =>
        rw [hplain] at hstep
        cases hstep
      | ok text =>
        rw [hplain] at hstep
        exact fits_of_mem_trailAll nodes
          (fun other hother => places other (List.mem_cons_of_mem _ hother)) htags step hstep

end

/-- Rendering with the stack of open tags is plain recursion on the tree.  At every step the stack
holds the tags of the elements around the place that is being written, so that leaving an element
closes the innermost tag and drops no other, and in the end nothing is open. -/
theorem ofNode_eq_plain_and_consistent (comments : Bool) (root : Node) :
    ofNode comments root = plain comments root ∧
      (write comments root .empty).steps = trail comments [] root ∧
      (∀ step ∈ (write comments root .empty).steps, step.Fits root) ∧
      ∀ text opened, (write comments root .empty).result = .ok (text, opened) →
        opened.isEmpty = true := by
  have hwrite := write_eq comments root .empty
  refine ⟨ofNode_eq_plain comments root, by rw [hwrite]; rfl, ?_, fun text opened h => ?_⟩
  · rw [hwrite]
    exact fits_of_mem_trail root .root .nil
  · rw [hwrite] at h
    cases hplain : plain comments root with
    | error fault =>
      rw [hplain] at h
      cases h
    | ok markup =>
      rw [hplain] at h
      cases h
      rfl

end Rendering

end Wxml
