import Wxml.Proofs.Discovery

/-!
# The outputs of a run

Every file that a run counts as converted has its output path lead to a file at the end, which holds
the markup of the last such file whose output path leads there (`Stored`).  That is its own markup
where no two sources have one output: with one extension at most, and with the outputs beside the
sources or the sources below the workspace (`place_eq_of_output_eq`).
-/

namespace Wxml

namespace Session

open FileSystem (Grows content? file?)
open Files (Location)

variable {s : Session} {many : Bool} {files : Files} {file : Path}

/-! ### Files counted as converted -/

/-- A file with its markup, if the progress counts it as converted. -/
def counted (p next : Progress Files) (file : Path) :
    Except Conversion.Fault Text → List (Path × Text)
  | .ok markup => if p.converted < next.converted then [(file, markup)] else []
  | .error _ => []

theorem counted_succeed (p : Progress Files) (files : Files) (messages : List Report.Message)
    (file : Path) (markup : Text) :
    counted p (p.succeed files messages) file (.ok markup) = [(file, markup)] :=
  if_pos (Nat.lt_succ_self _)

theorem counted_fail (p : Progress Files) (files : Files) (messages : List Report.Message)
    (file : Path) (result : Except Conversion.Fault Text) :
    counted p (p.fail files messages) file result = [] := by
  cases result with
  | error fault => rfl
  | ok markup => exact if_neg (Nat.lt_irrefl _)

/-- The files that are counted as converted, with their markup. -/
def convertedOf (s : Session) (many : Bool) :
    Progress Files → List (Path × Except Conversion.Fault Text) → List (Path × Text)
  | _, [] => []
  | p, (file, result) :: results =>
    let next := s.finish many p file result
    counted p next file result ++ s.convertedOf many next results

theorem length_convertedOf (s : Session) (many : Bool) (p : Progress Files)
    (results : List (Path × Except Conversion.Fault Text)) :
    p.converted + (s.convertedOf many p results).length =
      (s.finishAll many p results).converted := by
  induction results generalizing p with
  | nil => rfl
  | cons r results ih =>
    obtain ⟨file, result⟩ := r
    have hfinished := s.finished_finish many p file result
    rw [convertedOf, finishAll, ← ih]
    generalize s.finish many p file result = next at hfinished ⊢
    cases hfinished with
    | refused | unwritten =>
      rw [counted_fail, List.nil_append]
      rfl
    | printed | written =>
      rw [counted_succeed, List.length_append, List.length_singleton]
      exact (Nat.add_assoc _ _ _).symm

theorem convertedOf_sublist (s : Session) (many : Bool) (p : Progress Files)
    (results : List (Path × Except Conversion.Fault Text)) :
    ((s.convertedOf many p results).map fun w => (w.1, Except.ok w.2)).Sublist results := by
  induction results generalizing p with
  | nil => exact .refl _
  | cons r results ih =>
    obtain ⟨file, result⟩ := r
    have hfirst : ((counted p (s.finish many p file result) file result).map
        fun w => (w.1, Except.ok w.2)).Sublist [(file, result)] := by
      cases result with
      | error fault => exact List.nil_sublist _
      | ok markup =>
        rw [counted]
        split
        · exact .refl _
        · exact List.nil_sublist _
    rw [convertedOf, List.map_append]
    exact hfirst.append (ih _)

/-! ### The last output at a place -/

/-- The last of some outputs whose path leads to the file at a place. -/
def LastAt (s : Session) (files : Files) (l : Location) (written : List (Path × Text))
    (w : Path × Text) : Prop :=
  ∃ before after, written = before ++ w :: after ∧ file? files (s.outputPath w.1) = some l ∧
    ∀ v ∈ after, file? files (s.outputPath v.1) ≠ some l

theorem exists_lastAt {l : Location} {written : List (Path × Text)} {w : Path × Text}
    (hmem : w ∈ written) (hfile : file? files (s.outputPath w.1) = some l) :
    ∃ last, s.LastAt files l written last := by
  induction written generalizing w with
  | nil => cases hmem
  | cons v written ih =>
    by_cases hlater : ∃ u ∈ written, file? files (s.outputPath u.1) = some l
    · obtain ⟨u, hu, hleads⟩ := hlater
      obtain ⟨last, before, after, rfl, hlast⟩ := ih hu hleads
      exact ⟨last, v :: before, after, rfl, hlast⟩
    · have hlast : ∀ u ∈ written, file? files (s.outputPath u.1) ≠ some l :=
        fun u hu hleads => hlater ⟨u, hu, hleads⟩
      rcases List.mem_cons.1 hmem with rfl | hmem
      · exact ⟨w, [], written, rfl, hfile, hlast⟩
      · exact absurd hfile (hlast w hmem)

/-- Outputs as they are found in the files in the end. -/
structure Stored (s : Session) (before final : Files) (written : List (Path × Text)) : Prop where
  leads : ∀ w ∈ written, ∃ l, file? final (s.outputPath w.1) = some l
  last : ∀ {l w}, s.LastAt final l written w → content? final l = some (Text.bytes w.2)
  kept : ∀ {l}, (∀ w ∈ written, file? final (s.outputPath w.1) ≠ some l) →
    content? final l = content? before l

namespace Stored

variable {before middle final : Files} {written : List (Path × Text)}

theorem nil (s : Session) (files : Files) : s.Stored files files [] where
  leads _ hw := by cases hw
  last h := by
    obtain ⟨before, after, hsplit, -⟩ := h
    simp at hsplit
  kept _ := rfl

/-- Making directories before is no difference. -/
theorem of_grows (h : s.Stored middle final written) (hgrows : Grows before middle) :
    s.Stored before final written :=
  ⟨h.leads, h.last, fun hl => (h.kept hl).trans (hgrows.kept not_false)⟩

/-- An output that was saved first, and where its path still leads. -/
theorem cons {markup : Text} (h : s.Stored middle final written)
    (hsave : FileSystem.save before (s.outputPath file) markup = (middle, none))
    (hleads : ∀ {q l}, file? middle q = some l → file? final q = some l) :
    s.Stored before final ((file, markup) :: written) := by
  obtain ⟨location, hfile, hcontent⟩ := FileSystem.content?_of_save hsave
  have hbecomes := FileSystem.becomes_save before (s.outputPath file) markup
  rw [hsave] at hbecomes
  constructor
  case leads =>
    intro w hw
    rcases List.mem_cons.1 hw with rfl | hw
    · exact ⟨location, hleads hfile⟩
    · exact h.leads w hw
  case last =>
    rintro l w ⟨first, after, hsplit, hw, hafter⟩
    cases first with
    | nil =>
      -- nothing later leads to the place, so that it is as it was written
      cases hsplit
      have hl : location = l := Option.some.inj ((hleads hfile).symm.trans hw)
      rw [h.kept hafter, ← hl, hcontent]
    | cons v first =>
      cases hsplit
      exact h.last ⟨first, after, rfl, hw, hafter⟩
  case kept =>
    intro l hl
    have hother : ¬ file? middle (s.outputPath file) = some l :=
      fun hsame => hl _ List.mem_cons_self (hleads hsame)
    rw [h.kept fun w hw => hl w (List.mem_cons_of_mem _ hw), hbecomes.kept hother]

end Stored

theorem stored_finishAll (many : Bool) (p : Progress Files)
    (results : List (Path × Except Conversion.Fault Text)) (hout : s.line.stdout = false) :
    s.Stored p.files (s.finishAll many p results).files (s.convertedOf many p results) := by
  induction results generalizing p with
  | nil => exact .nil s p.files
  | cons r results ih =>
    obtain ⟨file, result⟩ := r
    have hfinished := s.finished_finish many p file result
    have hrest := ih (s.finish many p file result)
    have hbecomes := s.becomes_finishAll many (s.finish many p file result) results
    rw [convertedOf, finishAll]
    generalize s.finish many p file result = next at hfinished hrest hbecomes ⊢
    cases hfinished with
    | refused fault messages => exact hrest
    | printed markup messages htrue => simp [hout] at htrue
    | written markup messages _ hsave =>
      rw [counted_succeed]
      exact hrest.cons hsave hbecomes.file
    | unwritten markup messages _ hsave =>
      rw [counted_fail]
      exact hrest.of_grows (Files.grows_of_save_error hsave)

/-! ### Sources with one output -/

/-- The output beside a file. -/
theorem components_outputPath {cs : List Path.Component} {n : Text} (hdir : s.config.outDir = none)
    (h : file.components = cs ++ [.name n]) :
    ∃ c, Path.component? (Path.renameExtension "wxml" n) = some c ∧
      (s.outputPath file).components = cs ++ [c] := by
  have hpath : s.outputPath file = file.withExtension "wxml" := by
    rw [outputPath, hdir]
  rw [hpath]
  exact Path.components_withExtension h (by decide) (by decide)

/-- The output of a file below the workspace, in another directory. -/
theorem components_outputPath_of_below {dir : Path} {names : List Text} {n : Text}
    (hdir : s.config.outDir = some dir)
    (h : file.components = s.config.workspace.components ++ (names ++ [n]).map .name) :
    ∃ c, Path.component? (Path.renameExtension "wxml" n) = some c ∧
      (s.outputPath file).components = dir.components ++ names.map .name ++ [c] := by
  have hlast := Path.components_below h
  obtain ⟨before, -, hdots, -⟩ := Path.exists_backward hlast
  have hloud : Path.isSilent (Path.renameExtension "wxml" n) = false :=
    Path.isSilent_renameExtension hdots (by decide)
  have hslash : '/' ∉ Path.renameExtension "wxml" n :=
    Path.slash_not_mem_renameExtension hdots (Path.slash_not_mem_name hlast) (by decide)
  obtain ⟨c, hc⟩ := Path.exists_component? hloud
  obtain ⟨hnameStart, hname⟩ := Path.components_of_segment hslash hc
  obtain ⟨inside, hinside, hstart, hcomponents⟩ := Path.components_relativeTo? h
  rw [List.map_append] at hcomponents
  obtain ⟨above, habove, haboveStart, haboveComponents⟩ := Path.components_parent? hcomponents
  rw [hstart] at haboveStart
  have hpath : s.outputPath file = (dir.join above).join ⟨Path.renameExtension "wxml" n⟩ := by
    have hfileName : file.fileName? = some n := Path.fileName?_eq_some.2 ⟨_, hlast⟩
    simp [outputPath, hdir, hinside, habove, hfileName]
  refine ⟨c, hc, ?_⟩
  rw [hpath, Path.components_join _ hnameStart, Path.components_join _ haboveStart, hname,
    haboveComponents]

/-- An output that is a file has the name of its source with another extension. -/
theorem exists_output_name {c : Path.Component} {cs : List Path.Component} {n : Text} {q : Path}
    (hc : Path.component? (Path.renameExtension "wxml" n) = some c)
    (h : q.components = cs ++ [c]) (hname : q.fileName? ≠ none) :
    q.components = cs ++ [.name (Path.renameExtension "wxml" n)] ∧
      Path.renameExtension "wxml" n ≠ (".." : Text) := by
  obtain ⟨m, hm⟩ := Option.ne_none_iff_exists'.1 hname
  obtain ⟨cs', hcs'⟩ := Path.fileName?_eq_some.1 hm
  rw [h] at hcs'
  obtain ⟨rfl, hlast⟩ := List.append_inj' hcs' rfl
  cases hlast
  obtain ⟨hrename, hdots⟩ := Path.eq_of_component?_eq_name hc
  exact ⟨by rw [h, hrename], hdots⟩

theorem extension_eq {f g : Path} {m n : Text} (hone : s.config.extensions.length ≤ 1)
    (hf : s.config.hasExtension f = true) (hg : s.config.hasExtension g = true)
    (hm : f.fileName? = some m) (hn : g.fileName? = some n) :
    (Path.splitExtension m).2 = (Path.splitExtension n).2 := by
  have hsame : Config.extensionOf f = Config.extensionOf g := by
    unfold Config.hasExtension at hf hg
    rcases hextensions : s.config.extensions with _ | ⟨extension, _ | ⟨other, more⟩⟩
    · simp [hextensions] at hf
    · simp only [hextensions, List.contains_cons, List.contains_nil, Bool.or_false,
        beq_iff_eq] at hf hg
      rw [hf, hg]
    · simp [hextensions] at hone
  unfold Config.extensionOf Path.extension? at hsame
  simp only [hm, hn, Option.bind_some] at hsame
  cases hfirst : (Path.splitExtension m).2 with
  | none =>
    cases hsecond : (Path.splitExtension n).2 with
    | none => rfl
    | some extension => simp [hfirst, hsecond] at hsame
  | some extension =>
    cases hsecond : (Path.splitExtension n).2 with
    | none => simp [hfirst, hsecond] at hsame
    | some other =>
      simp only [hfirst, hsecond, List.cons.injEq, true_and] at hsame
      rw [hsame]

/-- Sources and outputs are at the same names below two places, but for the extensions.  Beside the
sources, the places are the same; in another directory, they are the workspace and that. -/
theorem exists_places (s : Session) (files : Files) :
    ∃ sources outputs : Location, ∀ {f : Path} {n : Text}, f.fileName? = some n →
      s.config.outDir = none ∨ f.Below s.config.workspace →
      (s.outputPath f).fileName? ≠ none →
      ∃ names, Path.renameExtension "wxml" n ≠ (".." : Text) ∧
        files.place f = sources ++ names ++ [n] ∧
        files.place (s.outputPath f) = outputs ++ names ++ [Path.renameExtension "wxml" n] := by
  cases hdir : s.config.outDir with
  | none =>
    refine ⟨[], [], fun {f n} hn _ houtput => ?_⟩
    obtain ⟨cs, hcs⟩ := Path.fileName?_eq_some.1 hn
    obtain ⟨c, hc, hpath⟩ := components_outputPath hdir hcs
    obtain ⟨hpath, hdots⟩ := exists_output_name hc hpath houtput
    exact ⟨cs.foldl Files.enter files.here, hdots, files.place_of_components hcs,
      files.place_of_components hpath⟩
  | some dir =>
    refine ⟨files.place s.config.workspace, files.place dir, fun {f n} hn hbelow houtput => ?_⟩
    obtain ⟨names, m, hm⟩ := hbelow.resolve_left (by simp)
    obtain ⟨c, hc, hpath⟩ := components_outputPath_of_below hdir hm
    obtain ⟨hpath, hdots⟩ := exists_output_name hc hpath houtput
    have hsource := Path.components_below hm
    have hname : m = n := by
      have := Path.fileName?_eq_some.2 ⟨_, hsource⟩
      exact Option.some.inj (this.symm.trans hn)
    subst hname
    refine ⟨names, hdots, ?_, ?_⟩
    · rw [files.place_of_components hsource, List.foldl_append, Files.foldl_enter_names,
        Files.place_eq_foldl]
    · rw [files.place_of_components hpath, List.foldl_append, Files.foldl_enter_names,
        Files.place_eq_foldl]

/-- With one extension at most, two sources whose outputs are at one place are at one place. -/
theorem place_eq_of_output_eq {f g : Path} (hone : s.config.extensions.length ≤ 1)
    (hf : s.config.hasExtension f = true) (hg : s.config.hasExtension g = true)
    (hfBelow : s.config.outDir = none ∨ f.Below s.config.workspace)
    (hgBelow : s.config.outDir = none ∨ g.Below s.config.workspace)
    (hfName : f.fileName? ≠ none) (hgName : g.fileName? ≠ none)
    (hfOutput : (s.outputPath f).fileName? ≠ none) (hgOutput : (s.outputPath g).fileName? ≠ none)
    (h : files.place (s.outputPath f) = files.place (s.outputPath g)) :
    files.place f = files.place g := by
  obtain ⟨m, hm⟩ := Option.ne_none_iff_exists'.1 hfName
  obtain ⟨n, hn⟩ := Option.ne_none_iff_exists'.1 hgName
  obtain ⟨sources, outputs, hplaces⟩ := s.exists_places files
  obtain ⟨names, hdots, hsource, houtput⟩ := hplaces hm hfBelow hfOutput
  obtain ⟨names', -, hsource', houtput'⟩ := hplaces hn hgBelow hgOutput
  rw [houtput, houtput', List.append_assoc, List.append_assoc] at h
  obtain ⟨hnames, hlast⟩ := List.append_inj' (List.append_cancel_left h) rfl
  have hmn : m = n := Path.eq_of_renameExtension_eq (Path.name_ne_dots hm) (Path.name_ne_dots hn)
    (extension_eq hone hf hg hm hn) hdots (List.singleton_inj.1 hlast)
  rw [hsource, hsource', hnames, hmn]

/-! ### A run -/

theorem hasExtension_of_discover {found : List Path} (h : s.discover files = .ok found)
    (hfile : file ∈ found) : s.config.hasExtension file = true :=
  ((listed_of_discover h).candidate file hfile).hasExtension

theorem readText_of_convert {markup : Text} (h : s.convert files file = .ok markup) :
    ∃ source, files.readText file = .ok source ∧
      Conversion.ofSource s.config.conversion source = .ok markup := by
  unfold convert at h
  split at h
  · cases h
  · rename_i source hread
    exact ⟨source, hread, h⟩

/-- A file that converts has a name. -/
theorem fileName_of_convert {markup : Text} (h : s.convert files file = .ok markup) :
    file.fileName? ≠ none := by
  intro hname
  obtain ⟨source, hread, -⟩ := readText_of_convert h
  obtain ⟨location, content, hlocate, hget, -⟩ := Files.readText_eq_ok_iff.1 hread
  rw [Files.directory_of_locate hlocate hname] at hget
  cases hget

/-- What a file converts to depends on its place only. -/
theorem markup_eq_of_place_eq {f g : Path} {t u : Text} (hf : s.convert files f = .ok t)
    (hg : s.convert files g = .ok u) (h : files.place f = files.place g) : t = u := by
  obtain ⟨source, hread, hsource⟩ := readText_of_convert hf
  obtain ⟨source', hread', hsource'⟩ := readText_of_convert hg
  obtain ⟨l, content, hlocate, hget, htext⟩ := Files.readText_eq_ok_iff.1 hread
  obtain ⟨l', content', hlocate', hget', htext'⟩ := Files.readText_eq_ok_iff.1 hread'
  have hplace : l = l' := by
    rw [← Files.place_of_locate hlocate, ← Files.place_of_locate hlocate', h]
  subst hplace
  cases hget.symm.trans hget'
  cases htext.symm.trans htext'
  exact Except.ok.inj (hsource.symm.trans hsource')

/-- The files of a run that are counted as converted, with their markup. -/
def convertedFiles (s : Session) (files : Files) (found : List Path) : List (Path × Text) :=
  s.convertedOf (1 < found.length) ⟨files, [], 0, 0⟩ (s.results files found)

theorem convert_of_mem {found : List Path} {w : Path × Text}
    (h : w ∈ s.convertedFiles files found) : w.1 ∈ found ∧ s.convert files w.1 = .ok w.2 := by
  have hsub := s.convertedOf_sublist (1 < found.length) ⟨files, [], 0, 0⟩ (s.results files found)
  exact mem_results.1 (hsub.subset (List.mem_map_of_mem h))

theorem convertedFiles_sublist (s : Session) (files : Files) (found : List Path) :
    ((s.convertedFiles files found).map Prod.fst).Sublist found := by
  have hsub := s.convertedOf_sublist (1 < found.length) ⟨files, [], 0, 0⟩ (s.results files found)
  have hfirst := hsub.map Prod.fst
  have hfound : (s.results files found).map Prod.fst = found := by
    simp [results, Function.comp_def]
  rw [List.map_map, hfound] at hfirst
  exact hfirst

theorem here_finished (s : Session) (files : Files) (found : List Path) :
    (s.finished files found).files.here = files.here :=
  finishAll_invariant (P := fun after : Files => after.here = files.here)
    (fun q t hhere => (Files.here_save _ q t).trans hhere) s _ (s.results files found) rfl

/-- A path that leads to a file has a name, and names the place of that file. -/
theorem named_and_placed {final : Files} {q : Path} {l : Location}
    (hhere : final.here = files.here) (h : file? final q = some l) :
    q.fileName? ≠ none ∧ files.place q = l := by
  obtain ⟨hlocate, content, hget⟩ := Files.filePlace?_eq_some_iff.1 h
  constructor
  · intro hname
    rw [Files.directory_of_locate hlocate hname] at hget
    cases hget
  · rw [Files.place_eq_foldl, ← hhere, ← Files.place_eq_foldl, Files.place_of_locate hlocate]

/-- The files that a run counts as converted are files that were found and convert, and unless it
prints, each of them has an output that can be read in the end.  It is the markup of the last of
them whose output is at the same place; and it is the file's own markup if there is one extension at
most, and the outputs are beside the files or all files are below the workspace. -/
theorem outputs_of_converted (s : Session) (files : Files) (milliseconds : Nat) {r : Result Files}
    (h : s.run files milliseconds = .ok r) (hout : s.line.stdout = false) :
    ∃ found, s.discover files = .ok found ∧
      (s.convertedFiles files found).length = r.counts.converted ∧
      ((s.convertedFiles files found).map Prod.fst).Sublist found ∧
      ∀ w ∈ s.convertedFiles files found,
        s.convert files w.1 = .ok w.2 ∧
        (∃ l last, s.LastAt r.files l (s.convertedFiles files found) last ∧
          file? r.files (s.outputPath w.1) = some l ∧
          r.files.readText (s.outputPath w.1) = .ok last.2) ∧
        (s.config.extensions.length ≤ 1 →
          (s.config.outDir = none ∨ ∀ file ∈ found, file.Below s.config.workspace) →
          r.files.readText (s.outputPath w.1) = .ok w.2) := by
  obtain ⟨found, hfound, rfl⟩ := run_eq_ok h
  have hstored : s.Stored files (s.finished files found).files (s.convertedFiles files found) :=
    stored_finishAll (1 < found.length) ⟨files, [], 0, 0⟩ (s.results files found) hout
  have hlength : 0 + (s.convertedFiles files found).length = (s.finished files found).converted :=
    s.length_convertedOf (1 < found.length) ⟨files, [], 0, 0⟩ (s.results files found)
  refine ⟨found, hfound, (Nat.zero_add _).symm.trans hlength,
    s.convertedFiles_sublist files found, fun w hw => ?_⟩
  obtain ⟨hfile, hconvert⟩ := convert_of_mem hw
  obtain ⟨l, hl⟩ := hstored.leads w hw
  obtain ⟨last, hlast⟩ := exists_lastAt hw hl
  have hcontent := hstored.last hlast
  have hread := Files.readText_of_content? hl hcontent
  refine ⟨hconvert, ⟨l, last, hlast, hl, hread⟩, fun hone hbelow => ?_⟩
  obtain ⟨before, after, hsplit, hlastLeads, -⟩ := hlast
  have hlastMem : last ∈ s.convertedFiles files found := by
    rw [hsplit]
    simp
  obtain ⟨hlastFile, hlastConvert⟩ := convert_of_mem hlastMem
  have hplaced := fun q (hq : file? (s.finished files found).files q = some l) =>
    named_and_placed (s.here_finished files found) hq
  obtain ⟨hname, hplace⟩ := hplaced _ hl
  obtain ⟨hlastName, hlastPlace⟩ := hplaced _ hlastLeads
  have hsource : files.place w.1 = files.place last.1 := by
    apply place_eq_of_output_eq hone (hasExtension_of_discover hfound hfile)
      (hasExtension_of_discover hfound hlastFile) (hbelow.imp_right (· _ hfile))
      (hbelow.imp_right (· _ hlastFile)) (fileName_of_convert hconvert)
      (fileName_of_convert hlastConvert) hname hlastName
    rw [hplace, hlastPlace]
  rw [markup_eq_of_place_eq hconvert hlastConvert hsource]
  exact hread

/-- A run with the outputs in another directory. -/
def apartSession : Session :=
  ⟨⟨⟨"."⟩, none, [".vue"], [], [], some ⟨"o"⟩, ⟨true, .default⟩⟩, .empty⟩

def nestedFound : List Path := [⟨"./a.vue"⟩, ⟨"./d/a.vue"⟩]

def nestedOutputs : List (Path × Text) :=
  [(⟨"./a.vue"⟩, "<view>1</view>"), (⟨"./d/a.vue"⟩, "<view>2</view>")]

theorem outputs_of_converted_nested :
    ∃ r, apartSession.run nestedFiles 0 = .ok r ∧ apartSession.line.stdout = false ∧
      r.files.readText ⟨"o/a.wxml"⟩ = .ok "<view>1</view>" ∧
      r.files.readText ⟨"o/d/a.wxml"⟩ = .ok "<view>2</view>" := by
  have hcollect : apartSession.collect nestedFiles apartSession.roots = .ok nestedFound :=
    eq_ok_of_toOption (by decide +kernel)
  obtain ⟨hdiscover, hrun⟩ :=
    run_of_sorted 0 hcollect (by decide +kernel) (by decide +kernel) (by decide +kernel)
  have hconverted : apartSession.convertedFiles nestedFiles nestedFound = nestedOutputs := by
    decide +kernel
  have hbelow : ∀ file ∈ nestedFound, file.Below apartSession.config.workspace := by
    intro file hfile
    rcases List.mem_pair.1 hfile with rfl | rfl
    · exact ⟨[], "a.vue", by decide⟩
    · exact ⟨["d"], "a.vue", by decide⟩
  obtain ⟨found, hfound, -, -, houtputs⟩ :=
    outputs_of_converted apartSession nestedFiles 0 hrun rfl
  rw [hdiscover] at hfound
  cases hfound
  rw [hconverted] at houtputs
  have hread : ∀ w ∈ nestedOutputs,
      (apartSession.convertFiles nestedFiles 0 nestedFound).files.readText
        (apartSession.outputPath w.1) = .ok w.2 :=
    fun w hw => (houtputs w hw).2.2 (by decide) (.inr hbelow)
  have hfirst : apartSession.outputPath ⟨"./a.vue"⟩ = ⟨"o/a.wxml"⟩ := by decide +kernel
  have hsecond : apartSession.outputPath ⟨"./d/a.vue"⟩ = ⟨"o/d/a.wxml"⟩ := by decide +kernel
  refine ⟨_, hrun, rfl, ?_, ?_⟩
  · rw [← hfirst]
    exact hread (⟨"./a.vue"⟩, "<view>1</view>") List.mem_cons_self
  · rw [← hsecond]
    exact hread (⟨"./d/a.vue"⟩, "<view>2</view>") (List.mem_cons_of_mem _ List.mem_cons_self)

/-- A run after which the output of a file that was counted as converted is not its markup. -/
def Loses (s : Session) (files : Files) : Prop :=
  ∃ r found, s.run files 0 = .ok r ∧ s.discover files = .ok found ∧
    ∃ w ∈ s.convertedFiles files found, r.files.readText (s.outputPath w.1) ≠ .ok w.2

theorem loses_of_sorted {found : List Path} (w : Path × Text)
    (hcollect : s.collect files s.roots = .ok found)
    (hsorted : found.Pairwise fun p q => (p.order q).isLE = true)
    (honce : dropRepeats found = found) (hends : found.find? (s.aborts files) = none)
    (hw : w ∈ s.convertedFiles files found)
    (hread : ((s.convertFiles files 0 found).files.readText (s.outputPath w.1)).toOption ≠
      some w.2) : s.Loses files := by
  obtain ⟨hdiscover, hrun⟩ := run_of_sorted 0 hcollect hsorted honce hends
  exact ⟨_, found, hrun, hdiscover, w, hw, fun h => hread (congrArg Except.toOption h)⟩

/-- Two files that differ in their extensions only. -/
def twinFiles : Files :=
  ⟨[], [(["a.v"], .file (Text.bytes "<template><p>1</p></template>")),
    (["a.vue"], .file (Text.bytes "<template><p>2</p></template>"))]⟩

/-- A run for two extensions. -/
def twinSession : Session :=
  ⟨⟨⟨"."⟩, none, [".vue", ".v"], [], [], none, ⟨true, .default⟩⟩, .empty⟩

/-- Files in the workspace and beside it. -/
def besideFiles : Files :=
  ⟨[], [(["o"], .directory),
    (["o", "a.vue"], .file (Text.bytes "<template><p>1</p></template>")),
    (["w"], .directory),
    (["w", "a.vue"], .file (Text.bytes "<template><p>2</p></template>"))]⟩

/-- A run for a file outside of the workspace, with the outputs where that file is. -/
def besideSession : Session :=
  ⟨⟨⟨"w"⟩, none, [".vue"], [], [], some ⟨"o"⟩, ⟨true, .default⟩⟩,
    { CommandLine.empty with paths := [⟨"../o/a.vue"⟩, ⟨"a.vue"⟩] }⟩

/-- Two extensions can make a run lose an output, and so can a file outside of the workspace. -/
theorem exists_output_lost :
    (∃ (s : Session) (files : Files),
      s.line.stdout = false ∧ s.config.outDir = none ∧ s.Loses files) ∧
      ∃ (s : Session) (files : Files),
        s.line.stdout = false ∧ s.config.extensions.length = 1 ∧ s.Loses files := by
  refine ⟨⟨twinSession, twinFiles, rfl, rfl, ?_⟩, ⟨besideSession, besideFiles, rfl, rfl, ?_⟩⟩
  · have hcollect : twinSession.collect twinFiles twinSession.roots =
        .ok [⟨"./a.v"⟩, ⟨"./a.vue"⟩] := eq_ok_of_toOption (by decide +kernel)
    exact loses_of_sorted (⟨"./a.v"⟩, "<view>1</view>") hcollect (by decide +kernel)
      (by decide +kernel) (by decide +kernel) (by decide +kernel) (by decide +kernel)
  · have hcollect : besideSession.collect besideFiles besideSession.roots =
        .ok [⟨"w/../o/a.vue"⟩, ⟨"w/a.vue"⟩] := eq_ok_of_toOption (by decide +kernel)
    exact loses_of_sorted (⟨"w/../o/a.vue"⟩, "<view>1</view>") hcollect (by decide +kernel)
      (by decide +kernel) (by decide +kernel) (by decide +kernel) (by decide +kernel)

end Session

end Wxml
