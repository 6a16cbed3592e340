import Wxml.Text

/-!
# Open tags

The tags that are opened and not yet closed, the innermost first.  Closing a name closes its
innermost entry and drops the entries opened after it.
-/

namespace Wxml

/-- The tags that are open, the innermost first. -/
structure OpenTags where
  entries : List Text
  deriving DecidableEq, Repr

namespace OpenTags

/-- What closing a tag did. -/
inductive Outcome where
  /-- An entry was closed, and this many entries inside it were dropped. -/
  | closed (orphans : Nat)
  /-- No entry has the name; nothing changed. -/
  | unmatched
  deriving DecidableEq, Repr

def empty : OpenTags := ⟨[]⟩

def size (s : OpenTags) : Nat := s.entries.length

def isEmpty (s : OpenTags) : Bool := s.entries.isEmpty

/-- The stack with one more open tag. -/
def push (s : OpenTags) (tag : Text) : OpenTags := ⟨tag :: s.entries⟩

/-- The number of entries before the first one named `tag`, and the entries after it. -/
def find? (tag : Text) : List Text → Option (Nat × List Text)
  | [] => none
  | t :: ts => if t = tag then some (0, ts) else (find? tag ts).map fun (n, below) => (n + 1, below)

/-- Closes the innermost entry named `tag`. -/
def close (s : OpenTags) (tag : Text) : Outcome × OpenTags :=
  match find? tag s.entries with
  | some (orphans, below) => (.closed orphans, ⟨below⟩)
  | none => (.unmatched, s)

end OpenTags

end Wxml
