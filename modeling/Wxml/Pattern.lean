import Wxml.Text
import Wxml.Text.Word

/-!
# Patterns

A pattern can match at a place of a text in several ways.  `Pattern.ways` lists them in the order of
preference: of two choices the first one comes first, and a repetition prefers as many characters as
there are or, if it is a sparing one, as few.  The match in a text is the most preferred way at the
leftmost place where there is one (`Pattern.find?`), and with it come the texts of the groups.
-/

namespace Wxml

/-- What a stretch of text can look like. -/
inductive Pattern where
  /-- No character, anywhere. -/
  | empty
  /-- No character, before the first one. -/
  | start
  /-- No character, after the last one. -/
  | stop
  /-- A character of a class. -/
  | char (p : Char → Bool)
  /-- Characters of a class, as many as possible. -/
  | many (p : Char → Bool)
  /-- Characters of a class, as few as possible. -/
  | few (p : Char → Bool)
  | seq (first second : Pattern)
  | choice (first second : Pattern)
  /-- A pattern whose text is kept under a number. -/
  | group (number : Nat) (inner : Pattern)

namespace Pattern

/-! ### Matching -/

/-- How far a match has come: the number of characters before it, the text ahead, and the groups so
far, the last one first. -/
structure State where
  index : Nat
  rest : Text
  groups : List (Nat × Text)
  deriving DecidableEq, Repr

namespace State

/-- The state `n` characters further on. -/
def advance (s : State) (n : Nat) : State := ⟨s.index + n, s.rest.drop n, s.groups⟩

/-- The state with the text since another one kept under a number. -/
def keep (s : State) (number : Nat) (since : State) : State :=
  { s with groups := (number, since.rest.take (s.index - since.index)) :: s.groups }

end State

/-- The ways in which a pattern matches from a state on, by the states after it, the preferred ones
first. -/
def ways : Pattern → State → List State
  | empty, s => [s]
  | start, s => if s.index = 0 then [s] else []
  | stop, s => if s.rest = [] then [s] else []
  | char p, s => if s.rest.head?.any p then [s.advance 1] else []
  | many p, s => (List.range ((s.rest.takeWhile p).length + 1)).reverse.map s.advance
  | few p, s => (List.range ((s.rest.takeWhile p).length + 1)).map s.advance
  | seq first second, s => (first.ways s).flatMap second.ways
  | choice first second, s => first.ways s ++ second.ways s
  | group number inner, s => (inner.ways s).map fun after => after.keep number s

/-- The match at the leftmost place of a text that has `index` characters before it. -/
def findFrom? (r : Pattern) (index : Nat) : Text → Option State
  | [] => (r.ways ⟨index, [], []⟩).head?
  | c :: t => ((r.ways ⟨index, c :: t, []⟩).head?).or (r.findFrom? (index + 1) t)

/-- The match in a text. -/
def find? (r : Pattern) (t : Text) : Option State := r.findFrom? 0 t

/-- Whether there is a match in a text. -/
def occursIn (r : Pattern) (t : Text) : Bool := (r.find? t).isSome

/-! ### Putting patterns together -/

/-- The patterns one after another. -/
def all (rs : List Pattern) : Pattern := rs.foldr seq empty

/-- A pattern or nothing, preferably the pattern. -/
def optional (r : Pattern) : Pattern := choice r empty

/-- One or more characters of a class, as many as possible. -/
def oneOrMore (p : Char → Bool) : Pattern := seq (char p) (many p)

/-- A text as it is written. -/
def word (t : Text) : Pattern := all (t.map fun c => char (· == c))

end Pattern

end Wxml
