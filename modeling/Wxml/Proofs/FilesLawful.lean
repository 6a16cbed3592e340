import Wxml.Files
import Wxml.Proofs.FileChanges

/-!
# Files as a value are a lawful file system

Their files are told apart by their places.  `Files.Keeps` says that what there was is still where
it was; then paths lead where they led (`Keeps.locate`), and what is touched is what has another
content (`Keeps.becomes`).  A text that could not be saved touches nothing
(`grows_of_save_error`).
-/

namespace Wxml

/-- The bytes of a text are those of that text only. -/
theorem Text.ofBytes?_bytes (t : Text) : Text.ofBytes? (Text.bytes t) = some t := by
  have hbytes : (⟨(Text.bytes t).toArray⟩ : ByteArray) = (String.ofList t).toByteArray := by
    show _ = (t.flatMap String.utf8EncodeChar).toByteArray
    apply ByteArray.ext
    exact List.data_toByteArray.symm
  have hvalid := (String.ofList t).isValidUTF8
  rw [Text.ofBytes?, hbytes, String.fromUTF8?, dif_pos hvalid]
  exact congrArg some String.toList_ofList

namespace Files

open FileSystem (Becomes Cause Grows file? content?)

variable {files before after : Files} {p : Path} {location : Location}

/-! ### Entries -/

theorem lookup_setEntry (location other : Location) (entry : Entry)
    (entries : List (Location × Entry)) :
    (setEntry location entry entries).lookup other =
      if other = location then some entry else entries.lookup other := by
  induction entries with
  | nil =>
    by_cases h : other = location
    · simp [setEntry, h]
    · simp [setEntry, h]
  | cons first entries ih =>
    obtain ⟨l, e⟩ := first
    by_cases hl : l = location
    · subst hl
      by_cases h : other = l
      · simp [setEntry, h]
      · have hne : (other == l) = false := beq_false_of_ne h
        simp [setEntry, List.lookup_cons, h, hne]
    · by_cases h : other = l
      · subst h
        simp [setEntry, hl]
      · have hne : (other == l) = false := beq_false_of_ne h
        simp [setEntry, List.lookup_cons, hl, hne, ih]

theorem get?_of_isGiven (h : files.isGiven location = true) :
    files.get? location = some .directory := by
  rw [get?, if_pos h]

/-- What is set at a place that is no directory in any case is there afterwards. -/
theorem get?_insert_self (entry : Entry) (h : files.get? location ≠ some .directory) :
    (files.insert location entry).get? location = some entry := by
  have hgiven : ¬ (files.insert location entry).isGiven location = true :=
    fun hgiven => h (get?_of_isGiven hgiven)
  rw [get?, if_neg hgiven, insert, lookup_setEntry, if_pos rfl]

theorem get?_insert_of_ne {other : Location} (entry : Entry) (h : other ≠ location) :
    (files.insert location entry).get? other = files.get? other := by
  have hgiven : (files.insert location entry).isGiven other = files.isGiven other := rfl
  rw [get?, get?, hgiven, insert, lookup_setEntry, if_neg h]

/-! ### Following paths -/

/-- The place that a component leads to, seen from a directory. -/
def enter (location : Location) : Path.Component → Location
  | .root => []
  | .current => location
  | .parent => location.dropLast
  | .name n => location ++ [n]

/-- Segments are followed one component after another, each in a directory. -/
theorem follow_cons_eq_ok {start : Location} {segment : Text} {segments : List Text} :
    files.follow start (segment :: segments) = .ok location ↔
      files.get? start = some .directory ∧
        (∀ n, Path.component? segment = some (.name n) → Text.size n ≤ nameLimit) ∧
        files.follow ((Path.component? segment).elim start (enter start)) segments =
          .ok location := by
  rw [follow]
  cases hget : files.get? start with
  | none => simp
  | some entry =>
    cases entry with
    | file content => simp
    | directory =>
      unfold Path.component?
      by_cases hsilent : Path.isSilent segment = true
      · simp [hsilent]
      · by_cases hup : segment = (".." : Text)
        · simp only [hup]
          simp [Path.isSilent, enter]
        · simp only [if_neg hsilent, if_neg hup]
          by_cases hlimit : nameLimit < Text.size segment
          · simp [hlimit, Nat.not_le_of_lt hlimit]
          · simp [hlimit, Nat.le_of_not_lt hlimit, enter]

/-- A path leads to a place if it can be a path at all, and its segments lead there. -/
theorem locate_eq_ok_iff :
    files.locate p = .ok location ↔
      (p.text ≠ [] ∧ '\x00' ∉ p.text ∧ Text.size p.text ≤ pathLimit) ∧
        files.follow (files.startAt p.split.1) p.split.2 = .ok location := by
  unfold locate
  by_cases hempty : p.text = []
  · simp [hempty]
  · by_cases hnull : '\x00' ∈ p.text
    · simp [hempty, hnull]
    · by_cases hlimit : pathLimit < Text.size p.text
      · simp [hempty, hnull, hlimit, Nat.not_le_of_lt hlimit]
      · simp [hempty, hnull, hlimit, Nat.le_of_not_lt hlimit]

/-! ### What paths lead to -/

/-- The bytes of a file that is at a place. -/
def contentAt (files : Files) (location : Location) : Option Bytes :=
  match files.get? location with
  | some (.file content) => some content
  | _ => none

/-- The place of the file that a path leads to. -/
def filePlace? (files : Files) (p : Path) : Option Location :=
  (files.locate p).toOption.filter fun location => (files.contentAt location).isSome

instance : FileSystem.Identified Files Location := ⟨filePlace?, contentAt⟩

theorem contentAt_eq_some_iff {content : Bytes} :
    files.contentAt location = some content ↔ files.get? location = some (.file content) := by
  unfold contentAt
  split
  · rename_i hget
    simp [hget]
  · rename_i hother
    simpa using hother content

theorem filePlace?_eq_some_iff :
    files.filePlace? p = some location ↔
      files.locate p = .ok location ∧ ∃ content, files.get? location = some (.file content) := by
  unfold filePlace?
  cases hlocate : files.locate p with
  | error cause => simp [Except.toOption]
  | ok other =>
    simp only [Except.toOption, Option.filter_eq_some_iff, Option.some.injEq, Except.ok.injEq,
      Option.isSome_iff_exists, contentAt_eq_some_iff]

theorem kind?_eq_some_iff {kind : FileSystem.Kind} :
    files.kind? p = some kind ↔
      ∃ location entry, files.locate p = .ok location ∧ files.get? location = some entry ∧
        entry.kind = kind := by
  unfold kind? lookup
  cases hlocate : files.locate p with
  | error cause => simp [Except.toOption]
  | ok location =>
    cases hget : files.get? location with
    | none => simp [hget, Except.toOption]
    | some entry => simp [hget, Except.toOption]

theorem isDirectory_iff :
    FileSystem.isDirectory files p = true ↔
      ∃ location, files.locate p = .ok location ∧ files.get? location = some .directory := by
  have hkind : FileSystem.isDirectory files p = true ↔ files.kind? p = some .directory :=
    beq_iff_eq
  rw [hkind, kind?_eq_some_iff]
  constructor
  · rintro ⟨location, entry, hlocate, hget, hentry⟩
    cases entry with
    | file content => cases hentry
    | directory => exact ⟨location, hlocate, hget⟩
  · rintro ⟨location, hlocate, hget⟩
    exact ⟨location, .directory, hlocate, hget, rfl⟩

/-! ### Files later on -/

/-- Files in which what there was is still where it was. -/
structure Keeps (before after : Files) : Prop where
  here : after.here = before.here
  directory : ∀ {l}, before.get? l = some .directory → after.get? l = some .directory
  file : ∀ {l content}, before.get? l = some (.file content) →
    ∃ content', after.get? l = some (.file content')

namespace Keeps

/-- An entry where no directory is, and none in place of a file. -/
theorem insert {entry : Entry} (hdirectory : files.get? location ≠ some .directory)
    (hfile : ∀ content, files.get? location = some (.file content) → ∃ c, entry = .file c) :
    files.Keeps (files.insert location entry) where
  here := rfl
  directory {l} hl := by
    have hne : l ≠ location := by
      rintro rfl
      exact hdirectory hl
    rw [get?_insert_of_ne entry hne, hl]
  file {l content} hl := by
    by_cases hsame : l = location
    · subst hsame
      obtain ⟨c, rfl⟩ := hfile content hl
      exact ⟨c, get?_insert_self _ hdirectory⟩
    · exact ⟨content, by rw [get?_insert_of_ne entry hsame, hl]⟩

theorem follow (h : before.Keeps after) {segments : List Text} {start : Location}
    (hfollow : before.follow start segments = .ok location) :
    after.follow start segments = .ok location := by
  induction segments generalizing start with
  | nil => exact hfollow
  | cons segment segments ih =>
    obtain ⟨hget, hlimit, hrest⟩ := follow_cons_eq_ok.1 hfollow
    exact follow_cons_eq_ok.2 ⟨h.directory hget, hlimit, ih hrest⟩

/-- A path that leads to a place still leads there. -/
theorem locate (h : before.Keeps after) (hlocate : before.locate p = .ok location) :
    after.locate p = .ok location := by
  obtain ⟨hpath, hfollow⟩ := locate_eq_ok_iff.1 hlocate
  have hstart : after.startAt p.split.1 = before.startAt p.split.1 := by
    cases p.split.1 with
    | relative => exact h.here
    | current => exact h.here
    | absolute => rfl
  refine locate_eq_ok_iff.2 ⟨hpath, ?_⟩
  rw [hstart]
  exact h.follow hfollow

/-- Only the places with another content are touched. -/
theorem becomes {touched : Location → Prop} (h : before.Keeps after)
    (hkept : ∀ l, ¬ touched l → after.contentAt l = before.contentAt l) :
    Becomes touched before after where
  directory hp := by
    obtain ⟨location, hlocate, hget⟩ := isDirectory_iff.1 hp
    exact isDirectory_iff.2 ⟨location, h.locate hlocate, h.directory hget⟩
  file hp := by
    obtain ⟨hlocate, content, hget⟩ := filePlace?_eq_some_iff.1 hp
    exact filePlace?_eq_some_iff.2 ⟨h.locate hlocate, h.file hget⟩
  kept {l} hl := hkept l hl

end Keeps

theorem contentAt_insert_of_ne {other : Location} (entry : Entry) (h : other ≠ location) :
    (files.insert location entry).contentAt other = files.contentAt other := by
  simp only [contentAt, get?_insert_of_ne entry h]

theorem grows_of_makeDirectory (h : files.makeDirectory p = .ok after) : Grows files after := by
  unfold makeDirectory at h
  split at h
  · cases h
  · rename_i location _
    split at h
    · cases h
    · rename_i hnone
      cases h
      have hdirectory : files.get? location ≠ some .directory := by simp [hnone]
      have hkeeps : files.Keeps (files.insert location .directory) :=
        .insert hdirectory (by simp [hnone])
      refine hkeeps.becomes fun l _ => ?_
      by_cases hsame : l = location
      · simp [contentAt, hsame, hnone, get?_insert_self _ hdirectory]
      · exact contentAt_insert_of_ne _ hsame

/-- A text is written at the place that its path leads to, or nothing changes. -/
theorem writeText_cases (files : Files) (p : Path) (t : Text) :
    (∃ location, files.locate p = .ok location ∧ files.get? location ≠ some .directory ∧
        files.writeText p t = (files.insert location (.file (Text.bytes t)), none)) ∨
      ∃ cause, files.writeText p t = (files, some cause) := by
  unfold writeText
  split
  · rename_i cause _
    exact .inr ⟨cause, rfl⟩
  · rename_i location hlocate
    split
    · exact .inr ⟨.isDirectory, rfl⟩
    · rename_i hdirectory
      exact .inl ⟨location, hlocate, hdirectory, rfl⟩

theorem file?_of_insert {t : Text} (hlocate : files.locate p = .ok location)
    (hdirectory : files.get? location ≠ some .directory) :
    file? (files.insert location (.file (Text.bytes t))) p = some location := by
  have hkeeps : files.Keeps (files.insert location (.file (Text.bytes t))) :=
    .insert hdirectory fun _ _ => ⟨_, rfl⟩
  exact filePlace?_eq_some_iff.2
    ⟨hkeeps.locate hlocate, Text.bytes t, get?_insert_self _ hdirectory⟩

instance : FileSystem.Lawful Files Location where
  grows_of_makeDirectory h := grows_of_makeDirectory h
  becomes_writeText files p t := by
    change Becomes (fun f => file? (files.writeText p t).1 p = some f) files (files.writeText p t).1
    rcases files.writeText_cases p t with ⟨location, hlocate, hdirectory, hwrite⟩ | ⟨cause, hwrite⟩
    · rw [hwrite]
      have hkeeps : files.Keeps (files.insert location (.file (Text.bytes t))) :=
        .insert hdirectory fun _ _ => ⟨_, rfl⟩
      refine hkeeps.becomes fun l hl => contentAt_insert_of_ne _ ?_
      rintro rfl
      exact hl (file?_of_insert hlocate hdirectory)
    · rw [hwrite]
      exact .refl _ _
  content?_of_writeText {before after p t} h := by
    rcases before.writeText_cases p t with ⟨location, hlocate, hdirectory, hwrite⟩ | ⟨cause, hwrite⟩
    · cases hwrite.symm.trans h
      exact ⟨location, file?_of_insert hlocate hdirectory,
        contentAt_eq_some_iff.2 (get?_insert_self _ hdirectory)⟩
    · cases hwrite.symm.trans h

/-! ### Saving and reading -/

theorem here_save (files : Files) (p : Path) (t : Text) :
    (FileSystem.save files p t).1.here = files.here := by
  refine FileSystem.save_invariant (P := fun after : Files => after.here = files.here) ?_ ?_ rfl p t
  · intro before after p hmade hhere
    change before.makeDirectory p = .ok after at hmade
    unfold makeDirectory at hmade
    split at hmade
    · cases hmade
    · split at hmade
      · cases hmade
      · cases hmade
        exact hhere
  · intro before p t hhere
    change (before.writeText p t).1.here = files.here
    rcases before.writeText_cases p t with ⟨location, -, -, hwrite⟩ | ⟨cause, hwrite⟩
    · rw [hwrite]
      exact hhere
    · rw [hwrite]
      exact hhere

/-- A text that could not be saved touches nothing. -/
theorem grows_of_save_error {t : Text} {cause : Cause}
    (h : FileSystem.save files p t = (after, some cause)) : Grows files after := by
  rcases FileSystem.save_cases files p t with ⟨made, hgrows, hsave⟩ | ⟨made, other, hgrows, hsave⟩
  · rcases made.writeText_cases p t with ⟨location, -, -, hwrite⟩ | ⟨other, hwrite⟩
    · cases hwrite.symm.trans (hsave.symm.trans h)
    · cases hwrite.symm.trans (hsave.symm.trans h)
      exact hgrows
  · cases hsave.symm.trans h
    exact hgrows

theorem readText_eq_ok_iff {t : Text} :
    files.readText p = .ok t ↔
      ∃ location content, files.locate p = .ok location ∧
        files.get? location = some (.file content) ∧ Text.ofBytes? content = some t := by
  unfold readText lookup
  cases hlocate : files.locate p with
  | error cause => simp
  | ok location =>
    cases hget : files.get? location with
    | none => simp [hget]
    | some entry =>
      cases entry with
      | directory => simp [hget]
      | file content =>
        cases htext : Text.ofBytes? content with
        | none => simp [hget, htext]
        | some u => simp [hget, htext]

/-- A text can be read where it was written. -/
theorem readText_of_content? {t : Text} (hfile : file? files p = some location)
    (hcontent : content? files location = some (Text.bytes t)) : files.readText p = .ok t := by
  obtain ⟨hlocate, -⟩ := filePlace?_eq_some_iff.1 hfile
  exact readText_eq_ok_iff.2 ⟨location, Text.bytes t, hlocate,
    contentAt_eq_some_iff.1 hcontent, Text.ofBytes?_bytes t⟩

end Files

end Wxml
