import Wxml.FileSystem
import Wxml.Text.Bytes

/-!
# What writing changes

Several paths can lead to one file, so that files are told apart from their paths (`Identified`).
`Becomes touched` relates a file system to what it is later: directories are still there, paths lead
to the files they led to, and no file but the touched ones has another content or is new.  New
directories do not count.

A file system is `Lawful` if making a directory touches no file, and writing a text touches none but
the file that the path then leads to, whether the text is written or not.  Then saving a text, for
which directories are made (`ensureSegments_invariant`), touches no file but its own
(`becomes_save`).
-/

namespace Wxml

namespace FileSystem

/-- Files that are told apart: the one that a path leads to, and what a file holds if it is
there. -/
class Identified (σ : Type) (ι : outParam Type) where
  file? : σ → Path → Option ι
  content? : σ → ι → Option Bytes

export Identified (file? content?)

variable {σ ι : Type} [FileSystem σ] [Identified σ ι]

/-! ### Files later on -/

/-- A file system as it is later. -/
structure Becomes (touched : ι → Prop) (before after : σ) : Prop where
  directory : ∀ {p}, isDirectory before p = true → isDirectory after p = true
  file : ∀ {p f}, file? before p = some f → file? after p = some f
  kept : ∀ {f}, ¬ touched f → content? after f = content? before f

/-- A file system in which all files are as before. -/
abbrev Grows (before after : σ) : Prop := Becomes (fun _ : ι => False) before after

namespace Becomes

variable {touched more : ι → Prop} {before after later : σ}

theorem refl (touched : ι → Prop) (files : σ) : Becomes touched files files :=
  ⟨id, id, fun _ => rfl⟩

theorem mono (h : Becomes touched before after) (himp : ∀ f, touched f → more f) :
    Becomes more before after :=
  ⟨h.directory, h.file, fun hf => h.kept fun htouched => hf (himp _ htouched)⟩

theorem trans (h : Becomes touched before after) (h' : Becomes touched after later) :
    Becomes touched before later where
  directory hp := h'.directory (h.directory hp)
  file hp := h'.file (h.file hp)
  kept hf := (h'.kept hf).trans (h.kept hf)

/-- Files that did not change can be followed by any that do. -/
theorem of_grows (h : Becomes touched after later) (hgrows : Grows before after) :
    Becomes touched before later :=
  (hgrows.mono fun _ hfalse => hfalse.elim).trans h

end Becomes

/-- What is assumed of a file system. -/
class Lawful (σ : Type) (ι : outParam Type) [FileSystem σ] [Identified σ ι] : Prop where
  grows_of_makeDirectory {before after : σ} {p : Path} :
    makeDirectory before p = .ok after → Grows before after
  becomes_writeText (files : σ) (p : Path) (t : Text) :
    Becomes (fun f => file? (writeText files p t).1 p = some f) files (writeText files p t).1
  /-- What was written is there. -/
  content?_of_writeText {before after : σ} {p : Path} {t : Text} :
    writeText before p t = (after, none) →
      ∃ f, file? after p = some f ∧ content? after f = some (Text.bytes t)

/-! ### Making directories -/

section Invariant

variable {P : σ → Prop}
  (hmake : ∀ {before after : σ} {p : Path}, makeDirectory before p = .ok after → P before → P after)
include hmake

theorem ensureDirectory_invariant {files : σ} (h : P files) (p : Path) :
    P (ensureDirectory files p).1 := by
  unfold ensureDirectory
  split
  · rename_i made hmade
    exact hmake hmade h
  · split
    · exact h
    · exact h

/-- What holds after every directory that is made holds when all are made. -/
theorem ensureSegments_invariant {files : σ} (h : P files) (anchor : Path.Anchor)
    (segments : List Text) : P (ensureSegments files anchor segments).1 := by
  rw [ensureSegments]
  split
  · exact h
  · split
    · rename_i made hmade
      exact hmake hmade h
    · split
      · exact h
      · rename_i above before hparent
        have hless := Path.length_lt_of_parentSegments? hparent
        have habove := ensureSegments_invariant h above before
        split
        · rename_i made hmade
          rw [hmade] at habove
          exact ensureDirectory_invariant hmake habove _
        · rename_i made cause hmade
          rw [hmade] at habove
          exact habove
    · split
      · exact h
      · exact h
termination_by segments.length + anchor.components.length

/-- Saving a text is writing it after some directories were made, or it fails after that. -/
theorem save_cases_of_invariant {files : σ} (h : P files) (p : Path) (t : Text) :
    (∃ made, P made ∧ save files p t = writeText made p t) ∨
      ∃ made cause, P made ∧ save files p t = (made, some cause) := by
  unfold save
  split
  · exact .inl ⟨files, h, rfl⟩
  · rename_i parent _
    have hensured := ensureSegments_invariant hmake h parent.split.1 parent.split.2.reverse
    split
    · rename_i made hmade
      rw [ensureDirectories] at hmade
      rw [hmade] at hensured
      exact .inl ⟨made, hensured, rfl⟩
    · rename_i made cause hmade
      rw [ensureDirectories] at hmade
      rw [hmade] at hensured
      exact .inr ⟨made, cause, hensured, rfl⟩

/-- What holds after every directory that is made and every text that is written holds when a text
is saved. -/
theorem save_invariant (hwrite : ∀ {files : σ} p t, P files → P (writeText files p t).1) {files : σ}
    (h : P files) (p : Path) (t : Text) : P (save files p t).1 := by
  rcases save_cases_of_invariant hmake h p t with ⟨made, hmade, hsave⟩ | ⟨made, cause, hmade, hsave⟩
  · rw [hsave]
    exact hwrite p t hmade
  · rw [hsave]
    exact hmade

end Invariant

/-! ### Saving -/

variable [Lawful σ ι]

/-- Directories are made before a text is written, and all files are then as before. -/
theorem save_cases (files : σ) (p : Path) (t : Text) :
    (∃ made, Grows files made ∧ save files p t = writeText made p t) ∨
      ∃ made cause, Grows files made ∧ save files p t = (made, some cause) :=
  save_cases_of_invariant
    (fun hmade hgrows => (Lawful.grows_of_makeDirectory hmade).of_grows hgrows) (.refl _ files) p t

theorem becomes_save (files : σ) (p : Path) (t : Text) :
    Becomes (fun f => file? (save files p t).1 p = some f) files (save files p t).1 := by
  rcases save_cases files p t with ⟨made, hgrows, hsave⟩ | ⟨made, cause, hgrows, hsave⟩
  · rw [hsave]
    exact (Lawful.becomes_writeText made p t).of_grows hgrows
  · rw [hsave]
    exact hgrows.mono fun _ hfalse => hfalse.elim

theorem content?_of_save {before after : σ} {p : Path} {t : Text}
    (h : save before p t = (after, none)) :
    ∃ f, file? after p = some f ∧ content? after f = some (Text.bytes t) := by
  rcases save_cases before p t with ⟨made, -, hsave⟩ | ⟨made, cause, -, hsave⟩
  · exact Lawful.content?_of_writeText (hsave.symm.trans h)
  · cases hsave.symm.trans h

end FileSystem

end Wxml
