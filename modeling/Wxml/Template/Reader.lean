import Wxml.Template.Event

/-!
# Reading templates

`Template.build` puts the events of a source together to a tree, with the elements that are open on
a stack, and `Template.root` picks the one root element that a template must have.
-/

namespace Wxml

namespace Template

/-- An open element and the siblings before it, the nearest first. -/
structure Frame where
  head : Element
  before : List Node
  deriving Repr

/-- The nodes that the events make.  `nodes` are the children so far of the innermost open element,
the nearest first, and `frames` the open elements, the innermost first. -/
def build : (events : List Event) → (nodes : List Node) → (frames : List Frame) →
    Except Fault (List Node)
  | [], nodes, [] => .ok nodes.reverse
  | [], _, frame :: _ => .error (.unclosedElement frame.head.tag frame.head.span)
  | .failed fault :: _, _, _ => .error fault
  | .complete node :: events, nodes, frames => build events (node :: nodes) frames
  | .opened head :: events, nodes, frames => build events [] (⟨head, nodes⟩ :: frames)
  | .closed name span _ :: _, _, [] => .error (.mismatchedClosingTag none name span)
  | .closed name span stop :: events, nodes, frame :: frames =>
    if name = frame.head.tag then
      let head := { frame.head with span := ⟨frame.head.span.start, stop⟩ }
      build events (.element head nodes.reverse :: frame.before) frames
    else .error (.mismatchedClosingTag (some frame.head.tag) name span)

/-- The one element among the top nodes of a template.  Comments may stand beside it; `found` is the
element met before these nodes, and `size` that of the source. -/
def root (size : Nat) : (found : Option Node) → List Node → Except Fault Node
  | none, [] => .error (.noRoot ⟨0, size⟩)
  | some node, [] => .ok node
  | found, .comment _ _ :: nodes => root size found nodes
  | none, .element head children :: nodes => root size (some (.element head children)) nodes
  | some _, .element head _ :: _ => .error (.severalRoots head.span)
  | _, .text _ span :: _ => .error (.textOutsideRoot span)
  | _, .expression _ span :: _ => .error (.textOutsideRoot span)

/-- The root element of a template source. -/
def read (source : Text) : Except Fault Node :=
  match build (Event.scanBy (fun span _ => span.cut? source) (.start source)) [] [] with
  | .error fault => .error fault
  | .ok nodes => root (Text.size source) none nodes

end Template

end Wxml
