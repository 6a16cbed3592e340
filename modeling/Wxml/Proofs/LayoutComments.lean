import Wxml.Proofs.LayoutStable
import Wxml.Proofs.RenderedTokens

/-!
# Comments in markup

A comment is one token and is laid out as it stands, unless its content starts with one of
`seemingEnds`: the closing delimiter is looked for from the first character of the opening one on,
and together with the dashes of that, such a start is a closing delimiter.

`scan_seemingEnd` says where a comment is cut then, and `scan_comment_iff` that this is the only
case.  The reader of templates knows no such exception (`exists_comment?`).
-/

namespace Wxml

namespace Layout

open Text Token
open Template (ClearOfComments)

/-- What seems to end a comment at the start of its content. -/
def seemingEnds : List Text := [">", "->"]

/-- Every text without a closing delimiter is the content of some comment. -/
theorem exists_comment? {content : Text} (hclear : ClearOfComments content) :
    ∃ c after, Cursor.comment? c = some (content, after) := by
  obtain ⟨k, hread⟩ := Cursor.comment?_append 0 [] hclear
  exact ⟨_, _, hread⟩

/-- A comment is cut at a seeming end, and the rest of it is read like any markup. -/
theorem scan_seemingEnd (o : Options) {early : Text} (hearly : early ∈ seemingEnds) (t : Text) :
    scan o none ("<!--" ++ early ++ t) = comment ("<!--" ++ early) :: scan o none t := by
  have hfirst : first ("<!--" ++ early ++ t) = comment ("<!--" ++ early) := by
    have hcomment : ("<!--" : Text) <+: "<!--" ++ early ++ t := ⟨early ++ t, by simp⟩
    rw [first_of_comment hcomment, ofComment]
    simp only [seemingEnds, List.mem_cons, List.not_mem_nil, or_false] at hearly
    rcases hearly with rfl | rfl
    · simp [breakOn]
    · simp [breakOn]
  rw [scan_of_ne_nil (by simp), hfirst]
  show _ :: scan o none (("<!--" ++ early ++ t).drop ("<!--" ++ early).length) = _
  rw [List.drop_left]

/-- A comment is one token, and is laid out as it stands, exactly if it has no seeming end. -/
theorem scan_comment_iff {content : Text} (hclear : ClearOfComments content) (o : Options)
    (rest : Text) :
    (∃ c after, Cursor.comment? c = some (content, after)) ∧
      (scan o none ("<!--" ++ content ++ "-->" ++ rest) =
          comment ("<!--" ++ content ++ "-->") :: scan o none rest ↔
        ∀ early ∈ seemingEnds, ¬ early <+: content) ∧
      (∀ s, (∀ early ∈ seemingEnds, ¬ early <+: content) →
        lines o s (scan o none ("<!--" ++ content ++ "-->" ++ rest)) =
          s.due ++ (o.indent s.level ++ ("<!--" ++ content ++ "-->")) ::
            lines o ⟨s.level, 0, true⟩ (scan o none rest)) ∧
      ∀ early ∈ seemingEnds, ∀ inner, content = early ++ inner →
        scan o none ("<!--" ++ content ++ "-->" ++ rest) =
          comment ("<!--" ++ early) :: scan o none (inner ++ ("-->" ++ rest)) := by
  have hwhole (h : ∀ early ∈ seemingEnds, ¬ early <+: content) :
      scan o none ("<!--" ++ content ++ "-->" ++ rest) =
        comment ("<!--" ++ content ++ "-->") :: scan o none rest := by
    have hmark : Mark o (comment ("<!--" ++ content ++ "-->")) [text []] :=
      mark_comment hclear (h _ (by simp [seemingEnds])) (h _ (by simp [seemingEnds])) _
    exact scan_of_mark hmark (by simp)
  have hcut : ∀ early ∈ seemingEnds, ∀ inner, content = early ++ inner →
      scan o none ("<!--" ++ content ++ "-->" ++ rest) =
        comment ("<!--" ++ early) :: scan o none (inner ++ ("-->" ++ rest)) := by
    rintro early hearly inner rfl
    rw [← scan_seemingEnd o hearly]
    simp
  refine ⟨exists_comment? hclear, ⟨fun hscan early hearly hprefix => ?_, hwhole⟩,
    fun s h => ?_, hcut⟩
  · -- The comment that is read is shorter than the whole one.
    obtain ⟨inner, hinner⟩ := hprefix
    rw [hcut early hearly inner hinner.symm] at hscan
    obtain ⟨hsame, -⟩ := List.cons.inj hscan
    have hlength := congrArg (fun token => token.source.length) hsame
    simp only [source, ← hinner, List.length_append] at hlength
    have hclose : ("-->" : Text).length = 3 := rfl
    omega
  · rw [hwhole h, lines_comment]

/-- Dashes at both ends of the content, and markup inside. -/
theorem scan_comment_iff_dashes :
    ClearOfComments "-<b>-" ∧ (∀ early ∈ seemingEnds, ¬ early <+: ("-<b>-" : Text)) ∧
      scan .default none "<!---<b>--->x" =
        comment "<!---<b>--->" :: scan .default none "x" := by
  have hclear : ClearOfComments "-<b>-" := by decide
  have hearly : ∀ early ∈ seemingEnds, ¬ early <+: ("-<b>-" : Text) := by decide
  exact ⟨hclear, hearly, (scan_comment_iff hclear .default "x").2.1.2 hearly⟩

/-- A comment with the content `>` is laid out as a shorter one and a text. -/
theorem exists_comment_cut :
    ∃ content, ClearOfComments content ∧
      scan .default none ("<!--" ++ content ++ "-->") ≠
        [comment ("<!--" ++ content ++ "-->")] ∧
      format .default ("<!--" ++ content ++ "-->") = "<!-->\n-->" :=
  ⟨">", by decide, by decide +kernel, by decide +kernel⟩

end Layout

end Wxml
