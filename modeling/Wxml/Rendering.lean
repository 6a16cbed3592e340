import Wxml.Directive.Conversion
import Wxml.OpenTags
import Wxml.Template.Reader

/-!
# Rendering

`Rendering.write` goes through a template depth first and writes WXML, with the tags it has opened
on a stack; the first construct without a counterpart ends it.  Along with the text it gives its
steps: the nodes it came to and what it did to the stack, up to the end or the fault.
`Rendering.ofSource` reads a template and renders it.
-/

namespace Wxml

namespace Rendering

/-- A step of a rendering, with the tags that are open at it. -/
inductive Step where
  /-- The rendering comes to a node. -/
  | visit (node : Node) (opened : OpenTags)
  /-- A tag was opened; it is on the stack. -/
  | push (tag : Text) (opened : OpenTags)
  /-- A tag was closed: the stack before it, the answer, and the stack after it. -/
  | close (tag : Text) (before : OpenTags) (outcome : OpenTags.Outcome) (after : OpenTags)

/-- A part of a rendering: its steps, and what it wrote and left open unless a fault ended it. -/
structure Passage where
  steps : List Step
  result : Except Fault (Text × OpenTags)

/-- The closing tag of the innermost open `tag`; a tag that is not open is not closed. -/
def closing (tag : Text) : OpenTags.Outcome → Text
  | .closed _ => "</" ++ tag ++ ">"
  | .unmatched => []

/-- Where the `v-text` of an element stands. -/
def textSpan (e : Element) : Span :=
  match Attribute.find? "v-text" e.attributes with
  | some a => a.span
  | none => e.span

/-- The start of an element: its tag, up to the `>` or `/>`, and what comes right after it. -/
structure Opening where
  tag : Text
  markup : Text
  isVoid : Bool
  deriving DecidableEq, Repr

/-- The start of the element that an element becomes. -/
def opening (e : Element) : Except Fault Opening :=
  match Vocabulary.destination e with
  | .error fault => .error fault
  | .ok tag =>
    match Properties.ofAttributes e.attributes with
    | .error fault => .error fault
    | .ok ps =>
      let start := "<" ++ tag ++ ps.markup
      if Vocabulary.isVoid e.tag || Vocabulary.isVoid tag then
        if ps.inserted.isSome then .error (.directive "v-text" (.voidElement tag) (textSpan e))
        else .ok ⟨tag, start ++ " />", true⟩
      else .ok ⟨tag, start ++ ">" ++ ps.inserted.getD [], false⟩

mutual

/-- What a node is written as, and the tags open after it. -/
def write (comments : Bool) : Node → OpenTags → Passage
  | .text content span, opened => ⟨[.visit (.text content span) opened], .ok (content, opened)⟩
  | .comment content span, opened =>
    ⟨[.visit (.comment content span) opened],
      .ok (if comments then "<!--" ++ content ++ "-->" else [], opened)⟩
  | .expression raw span, opened =>
    ⟨[.visit (.expression raw span) opened],
      match rejectFilter raw span with
      | .error fault => .error fault
      | .ok () => .ok (interpolate raw, opened)⟩
  | .element head children, opened =>
    let visit := Step.visit (.element head children) opened
    match opening head with
    | .error fault => ⟨[visit], .error fault⟩
    | .ok start =>
      if start.isVoid then ⟨[visit], .ok (start.markup, opened)⟩
      else
        let inside := opened.push start.tag
        let ⟨steps, result⟩ := writeAll comments children inside
        let steps := visit :: .push start.tag inside :: steps
        match result with
        | .error fault => ⟨steps, .error fault⟩
        | .ok (content, before) =>
          let (outcome, after) := before.close start.tag
          ⟨steps ++ [.close start.tag before outcome after],
            .ok (start.markup ++ content ++ closing start.tag outcome, after)⟩

/-- What some nodes are written as, one after another. -/
def writeAll (comments : Bool) : List Node → OpenTags → Passage
  | [], opened => ⟨[], .ok ([], opened)⟩
  | node :: nodes, opened =>
    let ⟨steps, result⟩ := write comments node opened
    match result with
    | .error fault => ⟨steps, .error fault⟩
    | .ok (first, opened) =>
      let ⟨others, result⟩ := writeAll comments nodes opened
      ⟨steps ++ others, result.map fun (text, opened) => (first ++ text, opened)⟩

end

/-- The WXML of a template tree, on one line unless its text has line breaks. -/
def ofNode (comments : Bool) (root : Node) : Except Fault Text :=
  (write comments root .empty).result.map Prod.fst

/-- The WXML of a template source. -/
def ofSource (comments : Bool) (source : Text) : Except Fault Text :=
  match Template.read source with
  | .error fault => .error (.template fault)
  | .ok root => ofNode comments root

end Rendering

end Wxml
