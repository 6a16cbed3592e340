import Wxml.Text

/-!
# Paths

A path is kept as it is written.  It is compared by its components: repeated slashes, and dots other
than a leading one, do not count.  Joining, parents and extensions work on the text, so what is
shown to people is what they wrote.
-/

namespace Wxml

/-- A path as it is written. -/
structure Path where
  text : Text
  deriving DecidableEq, Repr

namespace Path

/-- What a path starts from. -/
inductive Anchor where
  /-- Where one is. -/
  | relative
  /-- Where one is, written as a dot. -/
  | current
  | absolute
  deriving DecidableEq, Repr

/-- A component of a path. -/
inductive Component where
  | root
  | current
  | parent
  | name (name : Text)
  deriving DecidableEq, Repr

/-- Where a path starts, and what stands between the slashes after that. -/
def split (p : Path) : Anchor × List Text :=
  match p.text with
  | [] => (.relative, [])
  | '/' :: t => (.absolute, Text.splitOn '/' t)
  | ['.'] => (.current, [])
  | '.' :: '/' :: t => (.current, Text.splitOn '/' t)
  | t => (.relative, Text.splitOn '/' t)

/-- The path with this start and these segments. -/
def ofSegments : Anchor → List Text → Path
  | .relative, segments => ⟨Text.join "/" segments⟩
  | .current, [] => ⟨"."⟩
  | .current, segments => ⟨"./" ++ Text.join "/" segments⟩
  | .absolute, segments => ⟨"/" ++ Text.join "/" segments⟩

/-- Whether a segment is no component. -/
def isSilent (segment : Text) : Bool := segment.isEmpty || segment == ("." : Text)

/-- Whether a text is the name of something in a directory. -/
def isName (t : Text) : Bool := !isSilent t && t != (".." : Text) && !t.contains '/'

/-- The component that a segment is, if it is one. -/
def component? (segment : Text) : Option Component :=
  if isSilent segment then none
  else if segment = (".." : Text) then some .parent
  else some (.name segment)

/-- The component that a start is, if it is one. -/
def Anchor.components : Anchor → List Component
  | relative => []
  | current => [.current]
  | absolute => [.root]

/-- The components of a path. -/
def components (p : Path) : List Component :=
  p.split.1.components ++ p.split.2.filterMap component?

/-- Whether two paths are the same, however they are written. -/
def same (p q : Path) : Bool := p.components == q.components

/-! ### Order -/

/-- The order of texts by code points, which is that of their bytes. -/
def compareText : Text → Text → Ordering
  | [], [] => .eq
  | [], _ :: _ => .lt
  | _ :: _, [] => .gt
  | a :: s, b :: t => (compare a.toNat b.toNat).then (compareText s t)

/-- The kinds of components in order. -/
def Component.rank : Component → Nat
  | root => 0
  | current => 1
  | parent => 2
  | name _ => 3

/-- The order of components: by kind, and names by their text. -/
def Component.order : Component → Component → Ordering
  | name s, name t => compareText s t
  | c, d => compare c.rank d.rank

/-- The order of lists of components. -/
def compareComponents : List Component → List Component → Ordering
  | [], [] => .eq
  | [], _ :: _ => .lt
  | _ :: _, [] => .gt
  | c :: cs, d :: ds => (c.order d).then (compareComponents cs ds)

/-- The order of paths, component by component. -/
def order (p q : Path) : Ordering := compareComponents p.components q.components

/-! ### Joining and taking apart -/

/-- The second path seen from the first: an absolute one stays what it is. -/
def join (p q : Path) : Path :=
  match q.text with
  | '/' :: _ => q
  | t =>
    if p.text.isEmpty || p.text.getLast? = some '/' then ⟨p.text ++ t⟩
    else ⟨p.text ++ '/' :: t⟩

/-- The path of what some names lead to from a path. -/
def descend (p : Path) (names : List Text) : Path := names.foldl (fun p name => p.join ⟨name⟩) p

/-- The segments of a path without those at its end that are no components, the last first. -/
def backward (segments : List Text) : List Text := segments.reverse.dropWhile isSilent

/-- What contains a path, given its start and its segments, the last first. -/
def parentSegments? : Anchor → List Text → Option (Anchor × List Text)
  | anchor, segments =>
    match segments.dropWhile isSilent with
    | _ :: before => some (anchor, before.dropWhile isSilent)
    | [] => if anchor = .current then some (.relative, []) else none

theorem length_lt_of_parentSegments? {anchor above : Anchor} {segments before : List Text}
    (h : parentSegments? anchor segments = some (above, before)) :
    before.length + above.components.length < segments.length + anchor.components.length := by
  simp only [parentSegments?] at h
  cases hfirst : segments.dropWhile isSilent with
  | nil =>
    by_cases hcurrent : anchor = .current
    · simp only [hfirst, hcurrent, if_true, Option.some.injEq, Prod.mk.injEq] at h
      simp [← h.1, ← h.2, hcurrent, Anchor.components]
    · simp [hfirst, hcurrent] at h
  | cons last first =>
    simp only [hfirst, Option.some.injEq, Prod.mk.injEq] at h
    have h₁ := (List.dropWhile_sublist isSilent (l := segments)).length_le
    have h₂ := (List.dropWhile_sublist isSilent (l := first)).length_le
    rw [hfirst, List.length_cons] at h₁
    rw [← h.1, ← h.2]
    omega

/-- The path that contains a path. -/
def parent? (p : Path) : Option Path :=
  (parentSegments? p.split.1 p.split.2.reverse).map fun (anchor, segments) =>
    ofSegments anchor segments.reverse

/-- The name of the file a path is of. -/
def fileName? (p : Path) : Option Text :=
  match p.components.getLast? with
  | some (.name name) => some name
  | _ => none

/-- A file name taken apart at its last dot.  A dot at the start does not count. -/
def splitExtension (name : Text) : Text × Option Text :=
  let after := (name.reverse.takeWhile (· != '.')).reverse
  let before := name.take (name.length - after.length - 1)
  if name = (".." : Text) || !name.contains '.' || before.isEmpty then (name, none)
  else (before, some after)

/-- What follows the last dot of the file name. -/
def extension? (p : Path) : Option Text := p.fileName?.bind fun name => (splitExtension name).2

/-- A file name with another extension.  Where only a dot stands before the old one, two dots are
left, which are no file name. -/
def renameExtension (extension name : Text) : Text :=
  let base :=
    match splitExtension name with
    | (stem, some _) => stem ++ "."
    | (_, none) => name
  if base = (".." : Text) then base else (splitExtension base).1 ++ "." ++ extension

/-- The path with another extension, if it is that of a file. -/
def withExtension (p : Path) (extension : Text) : Path :=
  match backward p.split.2 with
  | name :: before =>
    if name = (".." : Text) then p
    else ofSegments p.split.1 (renameExtension extension name :: before).reverse
  | [] => p

/-- The segments after the first `n` components, without those at either end that are none. -/
def dropComponents : Nat → List Text → List Text
  | 0, segments => (backward (segments.dropWhile isSilent)).reverse
  | _ + 1, [] => []
  | n + 1, segment :: segments =>
    if isSilent segment then dropComponents (n + 1) segments else dropComponents n segments

/-- The path as seen from another one that it starts with, component by component. -/
def relativeTo? (p base : Path) : Option Path :=
  if base.components.isPrefixOf p.components then
    let anchored := p.split.1.components.length
    some (ofSegments .relative (dropComponents (base.components.length - anchored) p.split.2))
  else none

end Path

end Wxml
