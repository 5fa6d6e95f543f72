import Shario.FileSafety
import Shario.DirectoryTree

/-! What a call on the whole tree does: it goes to the file that `find_file` names and
leaves all others, and every route, alone. -/
namespace TreeCalls

open CrdtTypes FileTree CharacterTree FilePlacement FileSafety DirectoryTree

def AllFiles (P : SharFile → Prop) (t : SharDirectory) : Prop :=
  ∀ ref f, t.getFile ref = some f → P f

/-- Same root, same routes, same files in other states. -/
structure SameRoutes (t u : SharDirectory) : Prop where
  dirName : u.dirName = t.dirName
  findFile : ∀ path, u.findFile path = t.findFile path
  paths : ∀ ref, (u.getFile ref).map SharFile.filePath = (t.getFile ref).map SharFile.filePath

theorem sameRoutes_refl (t : SharDirectory) : SameRoutes t t := ⟨rfl, fun _ => rfl, fun _ => rfl⟩

theorem SameRoutes.trans {t u v : SharDirectory} (h : SameRoutes t u) (k : SameRoutes u v) :
    SameRoutes t v :=
  ⟨k.dirName.trans h.dirName, fun p => (k.findFile p).trans (h.findFile p),
    fun r => (k.paths r).trans (h.paths r)⟩

theorem SameRoutes.file {t u : SharDirectory} (h : SameRoutes t u) {ref : FileRef} {f : SharFile}
    (hf : t.getFile ref = some f) : ∃ g, u.getFile ref = some g ∧ g.filePath = f.filePath := by
  have hp := h.paths ref
  rw [hf, Option.map_some, Option.map_eq_some_iff] at hp
  exact hp

theorem sameRoutes_set {t : SharDirectory} {ref : FileRef} {f g : SharFile}
    (hf : t.getFile ref = some f) (hp : g.filePath = f.filePath) :
    SameRoutes t (t.setFile ref g) := by
  refine ⟨SharDirectory.dirName_setFile, fun _ => SharDirectory.findFile_setFile hf hp, fun r => ?_⟩
  by_cases hr : r = ref
  · subst hr
    rw [SharDirectory.getFile_setFile_self hf, hf, Option.map_some, Option.map_some, hp]
  · rw [SharDirectory.getFile_setFile_ne hr]

theorem allFiles_set {P : SharFile → Prop} {t : SharDirectory} {ref : FileRef} {f g : SharFile}
    (h : AllFiles P t) (hf : t.getFile ref = some f) (hg : P g) : AllFiles P (t.setFile ref g) := by
  intro r f' hf'
  by_cases hr : r = ref
  · subst hr
    rw [SharDirectory.getFile_setFile_self hf, Option.some.injEq] at hf'
    exact hf' ▸ hg
  · rw [SharDirectory.getFile_setFile_ne hr] at hf'
    exact h r f' hf'

/-- The outcomes of `add_crdt` on the tree. -/
inductive TreeAdded (t : SharDirectory) (path : PathBuf) (c : CRDT) :
    Outcome → SharDirectory → Prop where
  | lost : t.findFile path = none → TreeAdded t path c (.error (.generic "File not found")) t
  | routed {ref f o g} : t.findFile path = some ref → t.getFile ref = some f → Added f c o g →
      TreeAdded t path c o (t.setFile ref g)

inductive TreeRemoved (t : SharDirectory) (path : PathBuf) (x : Identity) :
    Outcome → SharDirectory → Prop where
  | lost : t.findFile path = none → TreeRemoved t path x (.error (.generic "File not found")) t
  | routed {ref f o g} : t.findFile path = some ref → t.getFile ref = some f → Removed f x o g →
      TreeRemoved t path x o (t.setFile ref g)

theorem tree_add_cases {t : SharDirectory} (hs : AllFiles Sound t) (path : PathBuf) (row : ℕ)
    (c : CRDT) : ∃ o u, t.addCrdt path row c = some (o, u) ∧ TreeAdded t path c o u := by
  cases h : t.findFile path with
  | none => exact ⟨_, _, by simp [SharDirectory.addCrdt, h], .lost h⟩
  | some ref =>
    obtain ⟨f, hf⟩ := SharDirectory.getFile_of_findFile h
    obtain ⟨o, g, he, ha⟩ := add_cases (hs ref f hf) c row
    exact ⟨_, _, by simp [SharDirectory.addCrdt, h, hf, he], .routed h hf ha⟩

/-- Some file of the tree has `x` as a line break of row 0. -/
def BreakOnTop (t : SharDirectory) (path : PathBuf) (x : Identity) : Prop :=
  ∃ ref f, t.findFile path = some ref ∧ t.getFile ref = some f ∧ BreakInFirstRow f x

theorem tree_remove_cases {t : SharDirectory} (hs : AllFiles Sound t) (path : PathBuf) (row : ℕ)
    {x : Identity} (hx : x ≠ root) :
    (∃ o u, t.removeCrdt path row x = some (o, u) ∧ TreeRemoved t path x o u) ∨
    (t.removeCrdt path row x = none ∧ BreakOnTop t path x) := by
  cases h : t.findFile path with
  | none => exact Or.inl ⟨_, _, by simp [SharDirectory.removeCrdt, h], .lost h⟩
  | some ref =>
    obtain ⟨f, hf⟩ := SharDirectory.getFile_of_findFile h
    rcases remove_cases (hs ref f hf) hx row with ⟨o, g, he, hr, _⟩ | ⟨he, hb⟩
    · exact Or.inl ⟨_, _, by simp [SharDirectory.removeCrdt, h, hf, he], .routed h hf hr⟩
    · exact Or.inr ⟨by simp [SharDirectory.removeCrdt, h, hf, he], ref, f, h, hf, hb⟩

section Frame

variable {t u : SharDirectory} {path : PathBuf} {c : CRDT} {x : Identity} {o : Outcome}

theorem TreeAdded.routes (h : TreeAdded t path c o u) : SameRoutes t u := by
  cases h with
  | lost _ => exact sameRoutes_refl t
  | routed _ hf ha => exact sameRoutes_set hf (added_path ha)

theorem TreeRemoved.routes (h : TreeRemoved t path x o u) : SameRoutes t u := by
  cases h with
  | lost _ => exact sameRoutes_refl t
  | routed _ hf hr => exact sameRoutes_set hf (removed_path hr)

theorem TreeAdded.allFiles {P : SharFile → Prop} (h : TreeAdded t path c o u) (hP : AllFiles P t)
    (hstep : ∀ ref f g, t.findFile path = some ref → t.getFile ref = some f → P f →
      Added f c o g → P g) : AllFiles P u := by
  cases h with
  | lost _ => exact hP
  | routed hr hf ha => exact allFiles_set hP hf (hstep _ _ _ hr hf (hP _ _ hf) ha)

theorem TreeRemoved.allFiles {P : SharFile → Prop} (h : TreeRemoved t path x o u)
    (hP : AllFiles P t) (hstep : ∀ ref f g, t.findFile path = some ref → t.getFile ref = some f →
      P f → Removed f x o g → P g) : AllFiles P u := by
  cases h with
  | lost _ => exact hP
  | routed hr hf ha => exact allFiles_set hP hf (hstep _ _ _ hr hf (hP _ _ hf) ha)

theorem TreeAdded.sound (h : TreeAdded t path c o u) (hs : AllFiles Sound t) : AllFiles Sound u :=
  h.allFiles hs fun _ _ _ _ _ hf ha => sound_added hf ha

theorem TreeRemoved.sound (h : TreeRemoved t path x o u) (hx : x ≠ root) (hs : AllFiles Sound t) :
    AllFiles Sound u :=
  h.allFiles hs fun _ _ _ _ _ hf hr => sound_removed hf hx hr

theorem routed_added {ref : FileRef} {f : SharFile} (hr : t.findFile path = some ref)
    (hf : t.getFile ref = some f) (ha : TreeAdded t path c o u) : ∃ g, Added f c o g ∧ u.getFile ref = some g := by
  cases ha with
  | lost h =>
    rw [hr] at h
    exact absurd h (by simp)
  | @routed _ f' _ g hr' hf' ha =>
    rw [hr, Option.some.injEq] at hr'
    subst hr'
    rw [hf, Option.some.injEq] at hf'
    subst hf'
    exact ⟨g, ha, SharDirectory.getFile_setFile_self hf⟩

theorem routed_removed {ref : FileRef} {f : SharFile} (hr : t.findFile path = some ref)
    (hf : t.getFile ref = some f) (ht : TreeRemoved t path x o u) : ∃ g, Removed f x o g ∧ u.getFile ref = some g := by
  cases ht with
  | lost h =>
    rw [hr] at h
    exact absurd h (by simp)
  | @routed _ f' _ g hr' hf' ht =>
    rw [hr, Option.some.injEq] at hr'
    subst hr'
    rw [hf, Option.some.injEq] at hf'
    subst hf'
    exact ⟨g, ht, SharDirectory.getFile_setFile_self hf⟩

end Frame

mutual

theorem new_files {J : SharFile → ℕ → Prop} (hmono : ∀ f n m, J f n → n ≤ m → J f m)
    (hnew : ∀ path read c f n, SharFile.new path read c = some (.ok (f, n)) → J f n ∧ c ≤ n) :
    ∀ (read : Except String (List FsEntry)) (dirPath : PathBuf) (counter n : ℕ)
    (d : SharDirectory), SharDirectory.new read dirPath counter = some (.ok (d, n)) →
    (∀ f ∈ d.files, J f n) ∧ counter ≤ n
  | .error e, dirPath, counter, n, d, h => by simp [SharDirectory.new] at h
  | .ok entries, dirPath, counter, n, d, h => by
    simp only [SharDirectory.new, Option.bind_eq_bind, Option.bind_eq_some_iff] at h
    obtain ⟨r, hr, h⟩ := h
    cases r with
    | error e => simp at h
    | ok listing =>
      simp only [Option.some.injEq, Except.ok.injEq, Prod.mk.injEq] at h
      obtain ⟨rfl, rfl⟩ := h
      have hl := loadEntries_files hmono hnew entries dirPath _ listing
        (by simp [SharDirectory.filesBelow]) hr
      simpa [SharDirectory.files] using hl

theorem loadEntries_files {J : SharFile → ℕ → Prop} (hmono : ∀ f n m, J f n → n ≤ m → J f m)
    (hnew : ∀ path read c f n, SharFile.new path read c = some (.ok (f, n)) → J f n ∧ c ≤ n) :
    ∀ (entries : List FsEntry) (dirPath : PathBuf) (listing listing' : Listing),
    (∀ f ∈ listing.2.1 ++ SharDirectory.filesBelow listing.1, J f listing.2.2) →
    loadEntries entries dirPath listing = some (.ok listing') →
    (∀ f ∈ listing'.2.1 ++ SharDirectory.filesBelow listing'.1, J f listing'.2.2) ∧
      listing.2.2 ≤ listing'.2.2
  | [], dirPath, listing, listing', hl, h => by
    simp only [loadEntries, Option.some.injEq, Except.ok.injEq] at h
    exact h ▸ ⟨hl, le_rfl⟩
  | entry :: entries, dirPath, listing, listing', hl, h => by
    simp only [loadEntries, Option.bind_eq_bind, Option.bind_eq_some_iff] at h
    obtain ⟨r, hr, h⟩ := h
    cases r with
    | error e => simp at h
    | ok next =>
      obtain ⟨hn, hle⟩ := loadEntry_files hmono hnew entry dirPath listing next hl hr
      obtain ⟨hl', hle'⟩ := loadEntries_files hmono hnew entries dirPath next listing' hn h
      exact ⟨hl', hle.trans hle'⟩

theorem loadEntry_files {J : SharFile → ℕ → Prop} (hmono : ∀ f n m, J f n → n ≤ m → J f m)
    (hnew : ∀ path read c f n, SharFile.new path read c = some (.ok (f, n)) → J f n ∧ c ≤ n) :
    ∀ (entry : FsEntry) (dirPath : PathBuf) (listing listing' : Listing),
    (∀ f ∈ listing.2.1 ++ SharDirectory.filesBelow listing.1, J f listing.2.2) →
    loadEntry entry dirPath listing = some (.ok listing') →
    (∀ f ∈ listing'.2.1 ++ SharDirectory.filesBelow listing'.1, J f listing'.2.2) ∧
      listing.2.2 ≤ listing'.2.2
  | .dir name read, dirPath, (subDir, subFiles, counter), listing', hl, h => by
    simp only [loadEntry, Option.bind_eq_bind, Option.bind_eq_some_iff] at h
    obtain ⟨r, hr, h⟩ := h
    cases r with
    | error e => simp at h
    | ok dn =>
      obtain ⟨dir, n⟩ := dn
      simp only [Option.some.injEq, Except.ok.injEq] at h
      obtain ⟨hd, hle⟩ := new_files hmono hnew read _ _ _ _ hr
      have hbelow : ∀ dirs : List SharDirectory, SharDirectory.filesBelow (dirs ++ [dir]) =
          SharDirectory.filesBelow dirs ++ dir.files := by
        intro dirs
        induction dirs with
        | nil => simp [SharDirectory.filesBelow]
        | cons d dirs ih => simp [SharDirectory.filesBelow, ih]
      subst h
      refine ⟨fun f hf => ?_, hle⟩
      simp only [hbelow, ← List.append_assoc, List.mem_append] at hf hl
      rcases hf with hf | hf
      · exact hmono f counter n (hl f hf) hle
      · exact hd f hf
  | .file name read, dirPath, (subDir, subFiles, counter), listing', hl, h => by
    simp only [loadEntry, Option.bind_eq_bind, Option.bind_eq_some_iff] at h
    obtain ⟨r, hr, h⟩ := h
    cases r with
    | error e => simp at h
    | ok fn =>
      obtain ⟨g, n⟩ := fn
      simp only [Option.some.injEq, Except.ok.injEq] at h
      obtain ⟨hg, hle⟩ := hnew _ _ _ _ _ hr
      subst h
      refine ⟨fun f hf => ?_, hle⟩
      simp only [List.mem_append, List.mem_singleton] at hf hl
      rcases hf with (hf | rfl) | hf
      · exact hmono f counter n (hl f (Or.inl hf)) hle
      · exact hg
      · exact hmono f counter n (hl f (Or.inr hf)) hle
  | .special name, dirPath, listing, listing', hl, h => by
    simp only [loadEntry, Option.some.injEq, Except.ok.injEq] at h
    exact h ▸ ⟨hl, le_rfl⟩
  | .badEntry e, dirPath, listing, listing', _, h => by simp [loadEntry] at h
  | .badType name e, dirPath, listing, listing', _, h => by simp [loadEntry] at h

end

theorem fileAt_mem_files : ∀ {is : List ℕ} {j : ℕ} {d : SharDirectory} {f : SharFile},
    d.fileAt is j = some f → f ∈ d.files := by
  intro is
  induction is with
  | nil =>
    rintro j ⟨dirName, subDir, subFiles⟩ f h
    exact List.mem_append_left _ (List.mem_of_getElem? h)
  | cons i is ih =>
    rintro j ⟨dirName, subDir, subFiles⟩ f h
    simp only [SharDirectory.fileAt, Option.bind_eq_some_iff] at h
    obtain ⟨dir, hdir, h⟩ := h
    have hbelow : ∀ {dirs : List SharDirectory}, dir ∈ dirs → f ∈ SharDirectory.filesBelow dirs := by
      intro dirs
      induction dirs with
      | nil => simp
      | cons d dirs ihd =>
        intro hin
        rw [SharDirectory.filesBelow, List.mem_append]
        rcases List.mem_cons.mp hin with rfl | hin
        · exact Or.inl (ih h)
        · exact Or.inr (ihd hin)
    exact List.mem_append_right _ (hbelow (List.mem_of_getElem? hdir))

mutual

theorem files_fileAt : ∀ (d : SharDirectory) {f : SharFile}, f ∈ d.files →
    ∃ is j, d.fileAt is j = some f
  | .mk dirName subDir subFiles, f, h => by
    rw [SharDirectory.files, List.mem_append] at h
    rcases h with h | h
    · obtain ⟨j, hj⟩ := List.getElem?_of_mem h
      exact ⟨[], j, hj⟩
    · obtain ⟨i, dir, is, j, hi, hf⟩ := filesBelow_fileAt subDir h
      exact ⟨i :: is, j, by simpa [SharDirectory.fileAt, hi] using hf⟩

theorem filesBelow_fileAt : ∀ (dirs : List SharDirectory) {f : SharFile},
    f ∈ SharDirectory.filesBelow dirs →
    ∃ (i : ℕ) (dir : SharDirectory) (is : List ℕ) (j : ℕ),
      dirs[i]? = some dir ∧ dir.fileAt is j = some f
  | [], f, h => by simp [SharDirectory.filesBelow] at h
  | dir :: dirs, f, h => by
    rw [SharDirectory.filesBelow, List.mem_append] at h
    rcases h with h | h
    · obtain ⟨is, j, hf⟩ := files_fileAt dir h
      exact ⟨0, dir, is, j, rfl, hf⟩
    · obtain ⟨i, dir', is, j, hi, hf⟩ := filesBelow_fileAt dirs h
      exact ⟨i + 1, dir', is, j, hi, hf⟩

end

theorem mem_files {d : SharDirectory} {f : SharFile} :
    f ∈ d.files ↔ ∃ ref, d.getFile ref = some f := by
  constructor
  · intro h
    obtain ⟨is, j, hf⟩ := files_fileAt d h
    exact ⟨(is, j), hf⟩
  · rintro ⟨ref, hf⟩
    exact fileAt_mem_files hf

end TreeCalls
