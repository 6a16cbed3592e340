import Wxml.Glob

/-!
# Reading globs

`Glob.parse?` reads a pattern from left to right.  Braces open groups of alternatives, which nest;
the patterns around an open group wait on a stack.
-/

namespace Wxml

namespace Glob

/-- The ranges of a class after its opening bracket, the latest first, and the number of characters
up to its end.  `first` is for nothing read yet, and `dashed` for a dash that waits for the end of
the latest range. -/
def classRanges? (first dashed : Bool) (ranges : List (Char × Char)) :
    Text → Option (List (Char × Char) × Nat)
  | [] => none
  | c :: t =>
    let next (dashed : Bool) (ranges : List (Char × Char)) :=
      (classRanges? false dashed ranges t).map fun (ranges, n) => (ranges, n + 1)
    if c = ']' && !first then some (if dashed then ('-', '-') :: ranges else ranges, 1)
    else if c = '-' && !first && !dashed then next true ranges
    else
      match dashed, ranges with
      | true, (low, _) :: others => if c < low then none else next false ((low, c) :: others)
      | _, _ => next false ((c, c) :: ranges)

/-- The class after an opening bracket, and the number of characters up to its end. -/
def class? : Text → Option (Token × Nat)
  | c :: t =>
    if c = '!' || c = '^' then
      (classRanges? true false [] t).map fun (ranges, n) => (.oneOf true ranges, n + 1)
    else (classRanges? true false [] (c :: t)).map fun (ranges, n) => (.oneOf false ranges, n)
  | [] => none

/-- An open group: the alternatives it has, and the pattern before it, the latest token first. -/
structure Group where
  branches : List (List Token)
  before : List Token

/-- What was read: the tokens of the present pattern, the latest first, and the groups around it. -/
structure Reading where
  tokens : List Token
  groups : List Group

namespace Reading

def start : Reading := ⟨[], []⟩

def push (r : Reading) (token : Token) : Reading := { r with tokens := token :: r.tokens }

/-- Two stars that stand for no directories. -/
def pushStars (r : Reading) : Reading := (r.push .anything).push .anything

/-- Opens a group. -/
def openGroup (r : Reading) : Reading := ⟨[], ⟨[], r.tokens⟩ :: r.groups⟩

/-- Starts the next alternative, or reads a comma outside of any group. -/
def comma (r : Reading) : Reading :=
  match r.groups with
  | [] => r.push (.literal ',')
  | group :: groups =>
    ⟨[], { group with branches := r.tokens.reverse :: group.branches } :: groups⟩

/-- Closes the innermost group. -/
def closeGroup? (r : Reading) : Option Reading :=
  match r.groups with
  | [] => none
  | group :: groups =>
    some ⟨.either (r.tokens.reverse :: group.branches) :: group.before, groups⟩

/-- Two stars for directories: they take the slash before them in. -/
def pushDirectories (r : Reading) (token : Token) : Reading :=
  match r.tokens with
  | .leading :: _ => r
  | .trailing :: _ => r
  | _ :: tokens => { r with tokens := token :: tokens }
  | [] => r.push token

/-- Whether two stars may stand for directories after this character. -/
def admitsDirectories (r : Reading) (prev : Option Char) : Bool :=
  prev == some '/' || (!r.groups.isEmpty && (prev == some ',' || prev == some '\x7b'))

/-- Reads two stars that `t` follows: what was read then, the last character, and how many
characters of `t` belong to them. -/
def stars (r : Reading) (prev : Option Char) (t : Text) : Reading × Char × Nat :=
  if r.tokens.isEmpty then
    match t with
    | [] => (r.push .leading, '*', 0)
    | '/' :: _ => (r.push .leading, '/', 1)
    | _ => (r.pushStars, '*', 0)
  else if r.admitsDirectories prev then
    match t with
    | [] => (r.pushDirectories .trailing, '*', 0)
    | '/' :: _ => (r.pushDirectories .between, '/', 1)
    | c :: _ =>
      if (c = ',' || c = '\x7d') && !r.groups.isEmpty then (r.pushDirectories .trailing, '*', 0)
      else (r.pushStars, '*', 0)
  else (r.pushStars, '*', 0)

/-- Reads a character that `t` follows: what was read then, the last character, and how many
characters of `t` belong to it. -/
def step? (r : Reading) (prev : Option Char) (c : Char) (t : Text) :
    Option (Reading × Char × Nat) :=
  if c = '?' then some (r.push .any, c, 0)
  else if c = '*' then
    match t with
    | '*' :: t =>
      let (r, last, n) := r.stars prev t
      some (r, last, n + 1)
    | _ => some (r.push .anything, c, 0)
  else if c = '[' then (class? t).map fun (token, n) => (r.push token, ']', n)
  else if c = '\x7b' then some (r.openGroup, c, 0)
  else if c = '\x7d' then r.closeGroup?.map fun r => (r, c, 0)
  else if c = ',' then some (r.comma, c, 0)
  else if c = '\\' then t.head?.map fun d => (r.push (.literal d), d, 1)
  else some (r.push (.literal c), c, 0)

end Reading

/-- Reads on to the end of a pattern. -/
def readPattern? (r : Reading) (prev : Option Char) : Text → Option Reading
  | [] => some r
  | c :: t =>
    match r.step? prev c t with
    | some (r, last, n) => readPattern? r (some last) (t.drop n)
    | none => none
termination_by t => t.length
decreasing_by simp only [List.length_drop, List.length_cons]; omega

/-- The glob that a text is the pattern of. -/
def parse? (pattern : Text) : Option Glob :=
  match readPattern? .start none pattern with
  | some ⟨tokens, []⟩ => some ⟨tokens.reverse⟩
  | _ => none

end Glob

end Wxml
