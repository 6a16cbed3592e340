import Wxml.Text

/-!
# Places in a text

A `Span` is a stretch of a text between two byte offsets.  A `LineTable` knows where the lines of a
text begin and turns an offset into a line and a column.
-/

namespace Wxml

/-- The bytes from offset `start` up to offset `stop`. -/
structure Span where
  start : Nat
  stop : Nat
  deriving DecidableEq, Repr

namespace Span

/-- Offsets are below this: they have 32 bits. -/
def offsetLimit : Nat := 4294967296

/-- The span of no bytes at an offset. -/
def empty (offset : Nat) : Span := ⟨offset, offset⟩

/-- The span as it is kept: of its ends, the low 32 bits count. -/
def kept (s : Span) : Span := ⟨s.start % offsetLimit, s.stop % offsetLimit⟩

/-- What stands at a span of a source, by the span as it is kept. -/
def cut? (s : Span) (source : Text) : Option Text := Text.slice? source s.kept.start s.kept.stop

/-- The span moved `base` bytes further on. -/
def shift (s : Span) (base : Nat) : Span := ⟨s.start + base, s.stop + base⟩

end Span

instance : Inhabited Span := ⟨.empty 0⟩

/-- A line and a column, both counted from zero, the column in bytes. -/
structure Position where
  line : Nat
  column : Nat
  deriving DecidableEq, Repr

/-- The position as people count it, from one. -/
def Position.display (p : Position) : Nat × Nat := (p.line + 1, p.column + 1)

/-- Where each line of a text begins, and the size of the text. -/
structure LineTable where
  starts : List Nat
  size : Nat
  deriving DecidableEq, Repr

namespace LineTable

/-- The offsets just after the line feeds of a text that itself begins at `offset`. -/
def startsFrom (offset : Nat) : Text → List Nat
  | [] => []
  | c :: t =>
    let next := offset + c.utf8Size
    if c == '\n' then next :: startsFrom next t else startsFrom next t

def ofText (t : Text) : LineTable := ⟨0 :: startsFrom 0 t, Text.size t⟩

/-- The position of an offset; an offset past the end counts as the end. -/
def position (table : LineTable) (offset : Nat) : Position :=
  let offset := min offset table.size
  let begun := table.starts.filter (· ≤ offset)
  ⟨begun.length - 1, offset - begun.getLastD 0⟩

end LineTable

end Wxml
