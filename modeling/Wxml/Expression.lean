import Wxml.Pattern

/-!
# Expressions

Expressions are passed on as they are written; only three things about them matter, and each is a
pattern.  A filter is a bar with a blank on both sides (`Expression.hasFilter`).  An identifier is a
letter, `_` or `$`, and then word characters and `$` (`Expression.isIdentifier`).  The head of a
loop is `item in list` or `(item, index) in list`, with `of` as good as `in` (`Loop.parse?`).
-/

namespace Wxml

namespace Expression

/-- A bar between two blanks: `\s\|\s`. -/
def filter : Pattern := .all [.char isBlank, .char (· == '|'), .char isBlank]

/-- Whether a bar stands between two blanks. -/
def hasFilter (e : Text) : Bool := filter.occursIn e

/-- The characters an identifier may start with. -/
def isIdentifierHead (c : Char) : Bool := c.isAlpha || c == '_' || c == '$'

/-- The characters an identifier goes on with. -/
def isIdentifierChar (c : Char) : Bool := isWordChar c || c == '$'

/-- An identifier: `[A-Za-z_$][\w$]*`. -/
def identifier : Pattern := .seq (.char isIdentifierHead) (.many isIdentifierChar)

/-- Whether a text is an identifier. -/
def isIdentifier (e : Text) : Bool := (Pattern.all [.start, identifier, .stop]).occursIn e

end Expression

/-- The head of a loop: the names for an item and its index, and the list they run through. -/
structure Loop where
  item : Text
  index : Option Text
  source : Text
  deriving DecidableEq, Repr

namespace Loop

open Pattern Expression

/-- The index of a name list, after a comma: `,\s*([A-Za-z_$][\w$]*)\s*`. -/
def indexPattern : Pattern :=
  .all [.char (· == ','), .many isBlank, .group 2 identifier, .many isBlank]

/-- The names of a loop: `\(\s*([A-Za-z_$][\w$]*)\s*(?:,\s*([A-Za-z_$][\w$]*)\s*)?\)`, or
`([A-Za-z_$][\w$]*)`. -/
def namesPattern : Pattern :=
  .choice
    (.all [.char (· == '('), .many isBlank, .group 1 identifier, .many isBlank,
      .optional indexPattern, .char (· == ')')])
    (.group 3 identifier)

/-- What a loop runs through, up to the end: `(\S.*?)\s*$`. -/
def sourcePattern : Pattern :=
  .all [.group 4 (.seq (.char (!isBlank ·)) (.few (· != '\n'))), .many isBlank, .stop]

/-- The head of a loop: `^\s*`, the names, `\s+(?:in|of)\s+`, and what it runs through. -/
def headPattern : Pattern :=
  .all [.start, .many isBlank, namesPattern, .oneOrMore isBlank,
    .choice (.word "in") (.word "of"), .oneOrMore isBlank, sourcePattern]

/-- The loop that the groups of a head name. -/
def ofGroups (groups : List (Nat × Text)) : Loop :=
  match groups.lookup 3 with
  | some item => ⟨item, none, (groups.lookup 4).getD []⟩
  | none => ⟨(groups.lookup 1).getD [], groups.lookup 2, (groups.lookup 4).getD []⟩

/-- The loop a text is the head of. -/
def parse? (t : Text) : Option Loop := (headPattern.find? t).map fun s => ofGroups s.groups

end Loop

end Wxml
