import Wxml.Proofs.FilesLawful
import Wxml.Proofs.Reading
import Wxml.Session

/-!
# What a run does to files

`Session.Finished` says once what finishing a file comes to: its conversion failed and no file is
touched, its markup is printed, its markup is saved, or it could not be saved.  From that: every
file is counted once (`counts_finishAll`), a run touches only the files that the output paths of
files that convert lead to (`becomes_finishAll`), and a file that does not convert makes no
difference to the files (`files_finishAll_filter`).

All this is so in every lawful file system, whatever links there are and whatever fails.
-/

namespace Wxml

namespace Session

open FileSystem (Becomes Cause Identified Lawful content? file? isDirectory)

variable {σ ι : Type} [FileSystem σ] {s : Session} {many : Bool} {p after : Progress σ}
  {file : Path} {result : Except Conversion.Fault Text}

/-! ### One file -/

/-- What finishing a file comes to. -/
inductive Finished (s : Session) (p : Progress σ) (file : Path) :
    Except Conversion.Fault Text → Progress σ → Prop
  | refused (fault : Conversion.Fault) (messages : List Report.Message) :
    Finished s p file (.error fault) (p.fail p.files messages)
  | printed (markup : Text) (messages : List Report.Message) (h : s.line.stdout = true) :
    Finished s p file (.ok markup) (p.succeed p.files messages)
  | written {files : σ} (markup : Text) (messages : List Report.Message)
    (h : s.line.stdout = false)
    (hsave : FileSystem.save p.files (s.outputPath file) markup = (files, none)) :
    Finished s p file (.ok markup) (p.succeed files messages)
  | unwritten {files : σ} {cause : Cause} (markup : Text) (messages : List Report.Message)
    (h : s.line.stdout = false)
    (hsave : FileSystem.save p.files (s.outputPath file) markup = (files, some cause)) :
    Finished s p file (.ok markup) (p.fail files messages)

theorem finished_finish (s : Session) (many : Bool) (p : Progress σ) (file : Path)
    (result : Except Conversion.Fault Text) :
    s.Finished p file result (s.finish many p file result) := by
  cases result with
  | error fault => exact .refused fault _
  | ok markup =>
    unfold finish
    by_cases hout : s.line.stdout = true
    · simp only [hout, if_true]
      exact .printed markup _ hout
    · have hout : s.line.stdout = false := by simpa using hout
      simp only [hout]
      cases hsave : FileSystem.save p.files (s.outputPath file) markup with
      | mk files cause =>
        cases cause with
        | none => exact .written markup _ hout hsave
        | some cause => exact .unwritten markup _ hout hsave

namespace Finished

/-- A file is counted once, as converted or as failed. -/
theorem counts (h : s.Finished p file result after) :
    after.converted + after.failed = p.converted + p.failed + 1 := by
  cases h with
  | refused => simp only [Progress.fail]; omega
  | printed => simp only [Progress.succeed]; omega
  | written => simp only [Progress.succeed]; omega
  | unwritten => simp only [Progress.fail]; omega

/-- Only what converts is touched, and only where its output path leads. -/
theorem becomes [Identified σ ι] [Lawful σ ι] (h : s.Finished p file result after) :
    Becomes (fun f => (∃ markup, result = .ok markup) ∧
      file? after.files (s.outputPath file) = some f) p.files after.files := by
  have hsaved : ∀ {files : σ} {cause : Option Cause} {markup : Text},
      FileSystem.save p.files (s.outputPath file) markup = (files, cause) →
      Becomes (fun f => file? files (s.outputPath file) = some f) p.files files := by
    intro files cause markup hsave
    have hbecomes := FileSystem.becomes_save p.files (s.outputPath file) markup
    rw [hsave] at hbecomes
    exact hbecomes
  cases h with
  | refused => exact .refl _ _
  | printed => exact .refl _ _
  | written markup messages hout hsave =>
    exact (hsaved hsave).mono fun f hf => ⟨⟨markup, rfl⟩, hf⟩
  | unwritten markup messages hout hsave =>
    exact (hsaved hsave).mono fun f hf => ⟨⟨markup, rfl⟩, hf⟩

/-- Printing touches nothing. -/
theorem files_eq (h : s.Finished p file result after) (hout : s.line.stdout = true) :
    after.files = p.files := by
  cases h with
  | refused => rfl
  | printed => rfl
  | written markup messages hfalse => simp [hout] at hfalse
  | unwritten markup messages hfalse => simp [hout] at hfalse

end Finished

/-! ### All files -/

theorem counts_finishAll (s : Session) (many : Bool) (p : Progress σ)
    (results : List (Path × Except Conversion.Fault Text)) :
    (s.finishAll many p results).converted + (s.finishAll many p results).failed =
      p.converted + p.failed + results.length := by
  induction results generalizing p with
  | nil => rfl
  | cons r results ih =>
    have hfirst := (s.finished_finish many p r.1 r.2).counts
    rw [finishAll, ih, hfirst, List.length_cons]
    omega

/-- The files that the outputs of files that convert lead to. -/
def Touches [Identified σ ι] (s : Session) (files : σ)
    (results : List (Path × Except Conversion.Fault Text)) (f : ι) : Prop :=
  ∃ file markup, (file, .ok markup) ∈ results ∧ file? files (s.outputPath file) = some f

theorem becomes_finishAll [Identified σ ι] [Lawful σ ι] (s : Session) (many : Bool)
    (p : Progress σ) (results : List (Path × Except Conversion.Fault Text)) :
    Becomes (s.Touches (s.finishAll many p results).files results) p.files
      (s.finishAll many p results).files := by
  induction results generalizing p with
  | nil => exact .refl _ _
  | cons r results ih =>
    obtain ⟨file, result⟩ := r
    have hfirst := (s.finished_finish many p file result).becomes
    have hrest := ih (s.finish many p file result)
    -- where the first output path leads, it still leads when all is done
    refine (hfirst.mono ?_).trans (hrest.mono ?_)
    · rintro f ⟨⟨markup, rfl⟩, hfile⟩
      exact ⟨file, markup, by simp, hrest.file hfile⟩
    · rintro f ⟨other, markup, hmem, hfile⟩
      exact ⟨other, markup, List.mem_cons_of_mem _ hmem, hfile⟩

/-- What holds after every text that is saved holds when all is done. -/
theorem finishAll_invariant {P : σ → Prop}
    (hsave : ∀ {files : σ} q t, P files → P (FileSystem.save files q t).1) (s : Session)
    (many : Bool) {p : Progress σ} (results : List (Path × Except Conversion.Fault Text))
    (h : P p.files) : P (s.finishAll many p results).files := by
  induction results generalizing p with
  | nil => exact h
  | cons r results ih =>
    obtain ⟨file, result⟩ := r
    refine ih ?_
    have hfinished := s.finished_finish many p file result
    generalize s.finish many p file result = next at hfinished ⊢
    cases hfinished with
    | refused => exact h
    | printed => exact h
    | written markup messages _ hsaved | unwritten markup messages _ hsaved =>
      have hnext := hsave (s.outputPath file) markup h
      rw [hsaved] at hnext
      exact hnext

theorem files_finishAll_of_stdout (many : Bool) (p : Progress σ)
    (results : List (Path × Except Conversion.Fault Text)) (hout : s.line.stdout = true) :
    (s.finishAll many p results).files = p.files := by
  induction results generalizing p with
  | nil => rfl
  | cons r results ih =>
    rw [finishAll, ih]
    exact (s.finished_finish many p r.1 r.2).files_eq hout

/-- What is written depends on the files so far and on nothing else of the progress. -/
theorem files_finish_congr {q : Progress σ} (many' : Bool) (h : p.files = q.files) :
    (s.finish many p file result).files = (s.finish many' q file result).files := by
  cases result with
  | error fault => exact h
  | ok markup =>
    simp only [finish, h]
    by_cases hout : s.line.stdout = true
    · simp only [hout, if_true, Progress.succeed]
    · simp only [hout]
      cases hsave : FileSystem.save q.files (s.outputPath file) markup with
      | mk files cause =>
        cases cause with
        | none => rfl
        | some cause => rfl

/-- Results that are errors can be left out. -/
theorem files_finishAll_filter {q : Progress σ} (many' : Bool)
    (results : List (Path × Except Conversion.Fault Text)) (h : p.files = q.files) :
    (s.finishAll many p results).files =
      (s.finishAll many' q (results.filter fun r => r.2.isOk)).files := by
  induction results generalizing p q with
  | nil => exact h
  | cons r results ih =>
    obtain ⟨file, result⟩ := r
    cases result with
    | error fault =>
      have hskip : ((file, Except.error fault) :: results).filter (fun r => r.2.isOk) =
          results.filter fun r => r.2.isOk := rfl
      rw [hskip]
      exact ih h
    | ok markup =>
      have hkeep : ((file, Except.ok markup) :: results).filter (fun r => r.2.isOk) =
          (file, .ok markup) :: results.filter fun r => r.2.isOk := rfl
      rw [hkeep]
      exact ih (files_finish_congr many' h)

/-! ### A run -/

/-- The files of a run with what they convert to. -/
def results (s : Session) (files : σ) (found : List Path) :
    List (Path × Except Conversion.Fault Text) :=
  found.map fun file => (file, s.convert files file)

theorem mem_results {files : σ} {found : List Path} :
    (file, result) ∈ s.results files found ↔ file ∈ found ∧ s.convert files file = result := by
  simp only [results, List.mem_map, Prod.mk.injEq]
  constructor
  · rintro ⟨other, hmem, rfl, hresult⟩
    exact ⟨hmem, hresult⟩
  · rintro ⟨hmem, hresult⟩
    exact ⟨file, hmem, rfl, hresult⟩

/-- The progress when all files of a run are finished. -/
def finished (s : Session) (files : σ) (found : List Path) : Progress σ :=
  s.finishAll (1 < found.length) ⟨files, [], 0, 0⟩ (s.results files found)

theorem run_eq_ok {files : σ} {milliseconds : Nat} {r : Result σ}
    (h : s.run files milliseconds = .ok r) :
    ∃ found, s.discover files = .ok found ∧ r = s.convertFiles files milliseconds found := by
  unfold run at h
  cases hfound : s.discover files with
  | error fault => simp [hfound] at h
  | ok found =>
    cases habort : found.find? (s.aborts files) with
    | some file => simp [hfound, habort] at h
    | none =>
      simp only [hfound, habort, Except.ok.injEq] at h
      exact ⟨found, rfl, h.symm⟩

theorem files_convertFiles_filter (s : Session) (files : σ) (milliseconds : Nat)
    (found : List Path) :
    (s.convertFiles files milliseconds found).files =
      (s.convertFiles files milliseconds
        (found.filter fun file => (s.convert files file).isOk)).files := by
  have hfilter : s.results files (found.filter fun file => (s.convert files file).isOk) =
      (s.results files found).filter fun r => r.2.isOk := by
    rw [results, results, List.filter_map]
    rfl
  change (s.finishAll _ _ (s.results files found)).files =
    (s.finishAll _ _ (s.results files _)).files
  rw [hfilter]
  exact files_finishAll_filter _ _ rfl

/-- A run counts every file that it found once, as converted or as failed.  Where it prints, the
file system stays as it is.  Otherwise directories stay, paths lead to the files they led to, and a
file changes or appears only if the output path of a file that converts leads to it; and files that
do not convert could as well not have been found. -/
theorem run_counts_and_touches [Identified σ ι] [Lawful σ ι] (s : Session) (files : σ)
    (milliseconds : Nat) {r : Result σ} (h : s.run files milliseconds = .ok r) :
    ∃ found, s.discover files = .ok found ∧
      r.counts.files = found.length ∧
      r.counts.converted + r.counts.failed = found.length ∧
      (s.line.stdout = true → r.files = files) ∧
      (∀ p, isDirectory files p = true → isDirectory r.files p = true) ∧
      (∀ p f, file? files p = some f → file? r.files p = some f) ∧
      (∀ f, (∀ file ∈ found, ∀ markup, s.convert files file = .ok markup →
          file? r.files (s.outputPath file) ≠ some f) →
        content? r.files f = content? files f) ∧
      r.files = (s.convertFiles files milliseconds
        (found.filter fun file => (s.convert files file).isOk)).files := by
  obtain ⟨found, hfound, rfl⟩ := run_eq_ok h
  have hbecomes := s.becomes_finishAll (1 < found.length) ⟨files, [], 0, 0⟩ (s.results files found)
  refine ⟨found, hfound, rfl, ?_, ?_, fun p hp => hbecomes.directory hp,
    fun p f hp => hbecomes.file hp, fun f hf => ?_, ?_⟩
  · calc (s.finished files found).converted + (s.finished files found).failed
        = 0 + 0 + (s.results files found).length := s.counts_finishAll _ _ _
      _ = found.length := by simp [results]
  · exact fun hout => files_finishAll_of_stdout _ ⟨files, [], 0, 0⟩ (s.results files found) hout
  · apply hbecomes.kept
    rintro ⟨file, markup, hmem, hfile⟩
    obtain ⟨hin, hconvert⟩ := mem_results.1 hmem
    exact hf file hin markup hconvert hfile
  · exact s.files_convertFiles_filter files milliseconds found

theorem discover_of_sorted {files : σ} {found : List Path}
    (hcollect : s.collect files s.roots = .ok found)
    (hsorted : found.Pairwise fun p q => (p.order q).isLE = true) :
    s.discover files = .ok (dropRepeats found) := by
  rw [discover, hcollect, Except.map, List.mergeSort_of_pairwise hsorted]

/-- Files that come in order, each once, are taken as they come. -/
theorem run_of_sorted {files : σ} {found : List Path} (milliseconds : Nat)
    (hcollect : s.collect files s.roots = .ok found)
    (hsorted : found.Pairwise fun p q => (p.order q).isLE = true)
    (honce : dropRepeats found = found) (hends : found.find? (s.aborts files) = none) :
    s.discover files = .ok found ∧
      s.run files milliseconds = .ok (s.convertFiles files milliseconds found) := by
  have hdiscover : s.discover files = .ok found := by
    rw [discover_of_sorted hcollect hsorted, honce]
  refine ⟨hdiscover, ?_⟩
  simp only [run, hdiscover, hends]

/-- A file that converts, one that does not, and what could be their outputs. -/
def mixedFiles : Files where
  here := ["w"]
  entries :=
    [(["w", "a.vue"], .file (Text.bytes "<template><p/></template>")),
      (["w", "b.vue"], .file (Text.bytes "<template><p></template>")),
      (["w", "dist"], .directory),
      (["w", "dist", "a.wxml"], .file (Text.bytes "old")),
      (["w", "dist", "b.wxml"], .file (Text.bytes "old"))]

/-- A run over the working directory, which is named from the root, with the outputs in a directory
of it, which is not. -/
def distSession : Session :=
  ⟨⟨⟨"/w"⟩, none, [".vue"], [], [], some ⟨"dist"⟩, ⟨true, .default⟩⟩, .empty⟩

def mixedFound : List Path := [⟨"/w/a.vue"⟩, ⟨"/w/b.vue"⟩]

theorem run_counts_and_touches_mixed :
    ∃ r, distSession.run mixedFiles 0 = .ok r ∧
      r.counts.converted + r.counts.failed = 2 ∧
      r.files.contentAt ["w", "dist", "a.wxml"] = some (Text.bytes "<view></view>") ∧
      r.files.contentAt ["w", "dist", "b.wxml"] = some (Text.bytes "old") := by
  have hcollect : distSession.collect mixedFiles distSession.roots = .ok mixedFound :=
    eq_ok_of_toOption (by decide +kernel)
  obtain ⟨hdiscover, hrun⟩ :=
    run_of_sorted 0 hcollect (by decide +kernel) (by decide +kernel) (by decide +kernel)
  have hother : ∀ file ∈ mixedFound, (distSession.convert mixedFiles file).isOk = true →
      file? (distSession.convertFiles mixedFiles 0 mixedFound).files
        (distSession.outputPath file) ≠ some [("w" : Text), "dist", "b.wxml"] := by
    decide +kernel
  obtain ⟨found, hfound, -, hcounts, -, -, -, hkept, -⟩ :=
    run_counts_and_touches distSession mixedFiles 0 hrun
  rw [hdiscover] at hfound
  cases hfound
  have hsame := hkept ["w", "dist", "b.wxml"] fun file hfile markup hconvert =>
    hother file hfile (by rw [hconvert]; rfl)
  exact ⟨_, hrun, hcounts, by decide +kernel, hsame.trans (by decide +kernel)⟩

end Session

end Wxml
