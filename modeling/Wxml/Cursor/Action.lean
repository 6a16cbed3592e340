import Wxml.Cursor.Body

/-!
# Actions on a cursor

Everything that can be done with a cursor, as data: `Cursor.Action.run` does one action and answers
with what it found and the cursor after it.
-/

namespace Wxml

namespace Cursor

/-- Something to do with a cursor. -/
inductive Action where
  | peek
  | next
  | skipBlanks
  | startsWith (pattern : Text)
  | consume (pattern : Text)
  | takeUntil (pattern : Text)
  | takeWhile (p : Char → Bool)
  | tagName
  | attributeName
  | unquoted
  | quoted
  | comment
  | body (tag : Text)
  | rest
  | atEnd
  /-- The span from an offset up to the cursor, as it is kept. -/
  | spanFrom (start : Nat)

/-- What an action found. -/
inductive Finding where
  | truth (value : Bool)
  | bytes (n : Nat)
  | text (value : Option Text)
  | quoted (value : Option (Text × Char))
  | span (span : Span)
  deriving DecidableEq, Repr

/-- What a reader found, and the cursor after it: where it was, if it found nothing. -/
def found {α : Type} (c : Cursor) (f : Option α → Finding) :
    Option (α × Cursor) → Finding × Cursor
  | some (a, after) => (f (some a), after)
  | none => (f none, c)

namespace Action

/-- Does an action. -/
def run (c : Cursor) : Action → Finding × Cursor
  | peek => (.text (c.peek?.map ([·])), c)
  | next => c.found .text (c.next?.map fun (d, after) => ([d], after))
  | skipBlanks => (.bytes (c.skipBlanks.offset - c.offset), c.skipBlanks)
  | startsWith pattern => (.truth (c.startsWith pattern), c)
  | consume pattern => (.truth (c.consume? pattern).isSome, c.consume pattern)
  | takeUntil pattern => (.text (some (c.takeUntil pattern).1), (c.takeUntil pattern).2)
  | takeWhile p => (.text (some (c.takeWhile p).1), (c.takeWhile p).2)
  | tagName => c.found .text c.tagName?
  | attributeName => c.found .text c.attributeName?
  | unquoted => (.text (some c.unquoted.1), c.unquoted.2)
  | quoted => c.found .quoted c.quoted?
  | comment => c.found .text c.comment?
  | body tag => (.text (some (c.body tag).1), (c.body tag).2)
  | rest => (.text (some c.rest), c)
  | atEnd => (.truth c.atEnd, c)
  | spanFrom start => (.span (c.spanFrom start).kept, c)

/-- Does some actions one after another, and gives what each found and the cursor after it. -/
def runAll (c : Cursor) : List Action → List (Finding × Cursor)
  | [] => []
  | action :: actions =>
    let step := run c action
    step :: runAll step.2 actions

end Action

end Cursor

end Wxml
