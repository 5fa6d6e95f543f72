import Shario.GenesisOrder
import Shario.TextSplices

/-! Loading a directory tree: it succeeds, every file spells what was read, and the ids count
the characters of all files. -/
namespace FaithfulLoading

open CrdtTypes FileTree CharacterTree FilePlacement FileSafety FileShape SinglePlace DirectoryTree
  PathRouting GenesisOrder TextSplices

mutual

/-- No read below the directory fails. -/
def Readable : Except String (List FsEntry) → Prop
  | .error _ => False
  | .ok entries => ReadableBelow entries

def ReadableBelow : List FsEntry → Prop
  | [] => True
  | entry :: entries => ReadableEntry entry ∧ ReadableBelow entries

def ReadableEntry : FsEntry → Prop
  | .dir _ read => Readable read
  | .file _ read => ∃ contents, read = .ok contents
  | .special _ => True
  | .badEntry _ => False
  | .badType _ _ => False

end

/-- The file `f` is what was read at a path. -/
structure LoadedFrom (dirPath : PathBuf) (read : PathBuf × List Char) (f : SharFile) : Prop where
  path : f.filePath = dirPath ++ read.1
  spelled : ∃ rows, f.identitiesWithValues = some rows ∧
    rows.map (·.map Prod.fst) = f.projection ∧ rows.flatten.tail.map Prod.snd = read.2
  rows : RowInvariant f
  known : ∀ x, x ∈ f.characters ↔ x ∈ text f
  ascending : (text f).Pairwise fun x y => x.1 < y.1
  -- The parent of each character is the one before it, and the root for the first.
  parents : (text f).tail.map (fun x => (f.characters.lookup x).map CrdtRelation.parent) =
    (text f).dropLast.map some

/-- The files stand for what was read, in some order, and `n` is the last of their ids. -/
structure LoadedTree (dirPath : PathBuf) (reads : List (PathBuf × List Char)) (d : SharDirectory)
    (n : ℕ) : Prop where
  listed : ∃ l, d.identities = some l ∧
    (l.map Prod.fst).Perm (reads.map fun read => dirPath ++ read.1)
  files : ∃ fs, d.files.Perm fs ∧ List.Forall₂ (LoadedFrom dirPath) reads fs ∧
    fs.flatMap (fun f => (text f).tail) = genesisIds 0 n

def written (prevId c : ℕ) : List Char → List (Identity × CrdtRelation)
  | [] => []
  | ch :: contents => ((c + 1, 0), .new ch prevId 0) :: written (c + 1) (c + 1) contents

section Written

variable {m : Characters} {prevId c : ℕ} {contents : List Char} {x : Identity}

theorem written_ids : (written prevId c contents).map Prod.fst = genesisIds c contents.length := by
  induction contents generalizing prevId c with
  | nil => rfl
  | cons ch contents ih =>
    rw [written, List.map_cons, ih]
    simp [genesisIds, List.range'_succ]

theorem written_values :
    (written prevId c contents).map (fun e => e.2.value) = contents := by
  induction contents generalizing prevId c with
  | nil => rfl
  | cons ch contents ih =>
    rw [written, List.map_cons, ih]
    rfl

theorem written_parents : (written prevId c contents).map (fun e => e.2.parent) =
    ((prevId, 0) :: genesisIds c contents.length).dropLast := by
  induction contents generalizing prevId c with
  | nil => rfl
  | cons ch contents ih =>
    rw [written, List.map_cons, ih]
    simp [genesisIds, List.range'_succ, CrdtRelation.parent, CrdtRelation.new]

theorem genesis_above {n : ℕ} (h : x ∈ genesisIds c n) : c < x.1 := by
  simp only [genesisIds, List.mem_map, List.mem_range'_1] at h
  obtain ⟨i, hi, rfl⟩ := h
  omega

theorem genesis_append (c m n : ℕ) :
    genesisIds c (m + n) = genesisIds c m ++ genesisIds (c + m) n := by
  have hstart : c + m + 1 = c + 1 + m := by omega
  rw [genesisIds, genesisIds, genesisIds, ← List.map_append, hstart, List.range'_append_1]

theorem genesis_ascending {n : ℕ} : (genesisIds c n).Pairwise fun x y => x.1 < y.1 := by
  rw [genesisIds, List.pairwise_map]
  exact List.pairwise_lt_range'

theorem write_below (h : x.1 ≤ c) : (write m prevId c contents).lookup x = m.lookup x := by
  induction contents generalizing m prevId c with
  | nil => rfl
  | cons ch contents ih =>
    have hne : x ≠ (c + 1, 0) := by
      rintro rfl
      simp at h
    rw [write, ih (by omega), Finmap.lookup_insert_of_ne _ hne]

theorem write_written : ∀ e ∈ written prevId c contents,
    (write m prevId c contents).lookup e.1 = some e.2 := by
  induction contents generalizing m prevId c with
  | nil => simp [written]
  | cons ch contents ih =>
    intro e he
    rcases List.mem_cons.mp he with rfl | he
    · rw [write, write_below (le_refl (c + 1)), Finmap.lookup_insert]
    · exact ih e he

theorem mem_write : x ∈ write m prevId c contents ↔
    x ∈ m ∨ x ∈ genesisIds c contents.length := by
  induction contents generalizing m prevId c with
  | nil => simp [write, genesisIds]
  | cons ch contents ih =>
    rw [write, ih, Finmap.mem_insert, List.length_cons, genesisIds, genesisIds,
      List.range'_succ, List.map_cons, List.mem_cons]
    tauto

end Written

section File

variable {path dirPath : PathBuf} {contents : List Char} {c n : ℕ} {f : SharFile}

theorem addChars_total (line : ℕ) {prevId : ℕ} (h : EndsWith f (prevId, 0) c)
    (hroom : c + contents.length < 2 ^ 32) :
    ∃ f', addChars f line prevId c contents = some (f', c + contents.length) := by
  induction contents generalizing f line prevId c with
  | nil => exact ⟨f, rfl⟩
  | cons ch contents ih =>
    rw [List.length_cons] at hroom
    obtain ⟨o, g, hg, hends, _⟩ := add_at_end h ch line
    obtain ⟨f', hf'⟩ := ih (if isLineBreak ch then line + 1 else line) hends (by omega)
    have htick : tick c = some (c + 1) := tick_eq_some.mpr ⟨by omega, rfl⟩
    refine ⟨f', ?_⟩
    simp only [addChars, htick, Option.bind_eq_bind, Option.bind_some, hg, hf', List.length_cons,
      Option.some.injEq, Prod.mk.injEq, true_and]
    omega

theorem file_total (path : PathBuf) (hroom : c + contents.length < 2 ^ 32) :
    ∃ f, SharFile.new path (.ok contents) c = some (.ok (f, c + contents.length)) := by
  obtain ⟨f, hf⟩ := addChars_total 0 (emptyFile_ends path c) hroom
  exact ⟨f, by simp [SharFile.new, hf]⟩

theorem file_faithful {r : PathBuf}
    (h : SharFile.new (dirPath ++ r) (.ok contents) c = some (.ok (f, n))) :
    LoadedFrom dirPath (r, contents) f ∧ (text f).tail = genesisIds c contents.length := by
  obtain ⟨_, hpath, hchars, hflat⟩ := new_writes h
  have hshape := (loaded_shape ⟨_, _, _, _, h⟩).1
  have htext : text f = root :: genesisIds c contents.length := hflat
  have htail : (text f).tail = (written 0 c contents).map Prod.fst := by
    rw [htext, List.tail_cons, written_ids]
  have hlookup : ∀ e ∈ written 0 c contents, f.characters.lookup e.1 = some e.2 := by
    rw [hchars]
    exact write_written
  refine ⟨⟨hpath, ⟨_, identities_eq hshape.toSound, ?_, ?_⟩, shape_rows hshape, fun x => ?_, ?_, ?_⟩,
    by rw [htext, List.tail_cons]⟩
  · simp [Function.comp_def]
  · rw [← List.map_flatten, ← List.map_tail, List.map_map]
    change (text f).tail.map _ = contents
    rw [htail, List.map_map]
    have hvalues : (written 0 c contents).map (fun e => e.2.value) = contents := written_values
    conv_rhs => rw [← hvalues]
    refine List.map_congr_left fun e he => ?_
    simp [valueIn, hlookup e he]
  · rw [hchars, mem_write, htext, List.mem_cons]
    simp [emptyFile, Finmap.notMem_empty]
  · rw [htext, List.pairwise_cons]
    exact ⟨fun x hx => Nat.zero_lt_of_lt (genesis_above hx), genesis_ascending⟩
  · rw [htail, htext, List.map_map]
    have hparents : (written 0 c contents).map (fun e => e.2.parent) =
        (root :: genesisIds c contents.length).dropLast := written_parents
    rw [← hparents, List.map_map]
    refine List.map_congr_left fun e he => ?_
    simp [hlookup e he]

end File

section Traversal

variable {dirPath : PathBuf} {files files' : List (PathBuf × List Char)} {fs : List SharFile}
  {c : ℕ}

theorem filesBelow_append (dirs : List SharDirectory) (dir : SharDirectory) :
    SharDirectory.filesBelow (dirs ++ [dir]) = SharDirectory.filesBelow dirs ++ dir.files := by
  induction dirs with
  | nil => simp [SharDirectory.filesBelow]
  | cons d dirs ih => simp [SharDirectory.filesBelow, ih, List.append_assoc]

/-- What the listing holds beside what it held before, each file once. -/
def GainsOnce (dirPath : PathBuf) (files : List (PathBuf × List Char))
    (listing listing' : Listing) : Prop :=
  listing'.2.2 = listing.2.2 + chars files ∧
    ∃ fs, Loads dirPath listing.2.2 files fs ∧
      (listing'.2.1 ++ SharDirectory.filesBelow listing'.1).Perm
        (listing.2.1 ++ SharDirectory.filesBelow listing.1 ++ fs)

theorem gainsOnce_append {l l' l'' : Listing} (h : GainsOnce dirPath files l l')
    (h' : GainsOnce dirPath files' l' l'') : GainsOnce dirPath (files ++ files') l l'' := by
  obtain ⟨hn, fs, hfs, hperm⟩ := h
  obtain ⟨hn', fs', hfs', hperm'⟩ := h'
  refine ⟨?_, fs ++ fs', loads_append hfs (hn ▸ hfs'), ?_⟩
  · rw [hn', hn, chars_append, Nat.add_assoc]
  · rw [← List.append_assoc]
    exact hperm'.trans (hperm.append_right fs')

end Traversal

mutual

theorem new_total : ∀ (read : Except String (List FsEntry)) (dirPath : PathBuf) (c : ℕ),
    Readable read → c + chars (readFiles read) < 2 ^ 32 →
    ∃ d fs, SharDirectory.new read dirPath c = some (.ok (d, c + chars (readFiles read))) ∧
      Loads dirPath c (readFiles read) fs ∧ d.files.Perm fs
  | .error e, dirPath, c, hr, _ => by simp [Readable] at hr
  | .ok entries, dirPath, c, hr, hroom => by
    obtain ⟨⟨subDir, subFiles, n⟩, he, hn, fs, hfs, hperm⟩ :=
      loadEntries_total entries dirPath ([], [], c) (by simpa [Readable] using hr) hroom
    have hn' : n = c + chars (readFiles (.ok entries)) := hn
    refine ⟨.mk dirPath subDir subFiles, fs, ?_, hfs, hperm⟩
    simp [SharDirectory.new, he, hn']

theorem loadEntries_total : ∀ (entries : List FsEntry) (dirPath : PathBuf) (listing : Listing),
    ReadableBelow entries → listing.2.2 + chars (entriesFiles entries) < 2 ^ 32 →
    ∃ listing', loadEntries entries dirPath listing = some (.ok listing') ∧
      GainsOnce dirPath (entriesFiles entries) listing listing'
  | [], dirPath, listing, _, _ => ⟨listing, rfl, by simp [entriesFiles], [], .nil, by simp⟩
  | entry :: entries, dirPath, listing, hr, hroom => by
    rw [entriesFiles, chars_append] at hroom
    rw [ReadableBelow] at hr
    obtain ⟨next, hnext, hgains⟩ := loadEntry_total entry dirPath listing hr.1 (by omega)
    obtain ⟨listing', he, hgains'⟩ := loadEntries_total entries dirPath next hr.2 (by
      rw [hgains.1]
      omega)
    refine ⟨listing', ?_, ?_⟩
    · simp [loadEntries, hnext, he]
    · rw [entriesFiles]
      exact gainsOnce_append hgains hgains'

theorem loadEntry_total : ∀ (entry : FsEntry) (dirPath : PathBuf) (listing : Listing),
    ReadableEntry entry → listing.2.2 + chars (entryFiles entry) < 2 ^ 32 →
    ∃ listing', loadEntry entry dirPath listing = some (.ok listing') ∧
      GainsOnce dirPath (entryFiles entry) listing listing'
  | .dir name read, dirPath, (subDir, subFiles, c), hr, hroom => by
    rw [entryFiles, chars_below] at hroom
    obtain ⟨d, fs, he, hfs, hperm⟩ := new_total read (dirPath ++ [.normal name]) c
      (by simpa [ReadableEntry] using hr) hroom
    refine ⟨(subDir ++ [d], subFiles, c + chars (readFiles read)), by simp [loadEntry, he], ?_⟩
    rw [entryFiles]
    refine ⟨by rw [chars_below], fs, loads_below _ hfs, ?_⟩
    rw [filesBelow_append, ← List.append_assoc]
    exact hperm.append_left _
  | .file name read, dirPath, (subDir, subFiles, c), hr, hroom => by
    rw [ReadableEntry] at hr
    obtain ⟨contents, rfl⟩ := hr
    rw [entryFiles, chars_cons, chars_nil, Nat.add_zero] at hroom
    obtain ⟨f, hf⟩ := file_total (dirPath ++ [.normal name]) hroom
    refine ⟨(subDir, subFiles ++ [f], c + contents.length), by simp [loadEntry, hf], ?_⟩
    rw [entryFiles]
    refine ⟨by simp, [f], .cons hf .nil, ?_⟩
    simp only [List.append_assoc]
    exact List.perm_append_comm.append_left _
  | .special name, dirPath, listing, _, _ =>
    ⟨listing, rfl, by simp [entryFiles], [], .nil, by simp⟩
  | .badEntry e, dirPath, listing, hr, _ => by simp [ReadableEntry] at hr
  | .badType name e, dirPath, listing, hr, _ => by simp [ReadableEntry] at hr

end

section Faithful

variable {dirPath : PathBuf} {reads : List (PathBuf × List Char)} {fs : List SharFile} {c : ℕ}

theorem loads_faithful (h : Loads dirPath c reads fs) :
    List.Forall₂ (LoadedFrom dirPath) reads fs ∧
      fs.flatMap (fun f => (text f).tail) = genesisIds c (chars reads) := by
  induction h with
  | nil => exact ⟨.nil, rfl⟩
  | cons hf _ ih =>
    obtain ⟨hloaded, htail⟩ := file_faithful hf
    refine ⟨.cons hloaded ih.1, ?_⟩
    rw [List.flatMap_cons, htail, ih.2, chars_cons, genesis_append]

theorem forall_paths (h : List.Forall₂ (LoadedFrom dirPath) reads fs) :
    fs.map SharFile.filePath = reads.map fun read => dirPath ++ read.1 := by
  induction h with
  | nil => rfl
  | cons hf _ ih => rw [List.map_cons, List.map_cons, hf.path, ih]

theorem forall_identities (h : List.Forall₂ (LoadedFrom dirPath) reads fs) :
    ∀ f ∈ fs, f.identitiesWithValues = some (f.identitiesWithValues.getD []) := by
  induction h with
  | nil => simp
  | cons hf _ ih =>
    intro g hg
    rcases List.mem_cons.mp hg with rfl | hg
    · obtain ⟨rows, hrows, _⟩ := hf.spelled
      rw [hrows, Option.getD_some]
    · exact ih g hg

theorem identities_listed {d : SharDirectory} (hperm : d.files.Perm fs)
    (h : List.Forall₂ (LoadedFrom dirPath) reads fs) :
    ∃ l, d.identities = some l ∧
      (l.map Prod.fst).Perm (reads.map fun read => dirPath ++ read.1) := by
  refine ⟨_, mapM_total (g := fun f => (f.filePath, f.identitiesWithValues.getD []))
    fun f hf => ?_, ?_⟩
  · rw [forall_identities h f (hperm.mem_iff.mp hf)]
    rfl
  · rw [List.map_map, ← forall_paths h]
    exact hperm.map _

/-- A directory tree that can be read is loaded faithfully, in whatever order it is listed. -/
theorem loading_faithful (read : Except String (List FsEntry)) (dirPath : PathBuf)
    (hr : Readable read) (hroom : chars (readFiles read) < 2 ^ 32) :
    ∃ d, SharDirectory.new read dirPath 0 = some (.ok (d, chars (readFiles read))) ∧
      LoadedTree dirPath (readFiles read) d (chars (readFiles read)) := by
  obtain ⟨d, fs, he, hfs, hperm⟩ := new_total read dirPath 0 hr (by rwa [Nat.zero_add])
  rw [Nat.zero_add] at he
  obtain ⟨hfiles, hids⟩ := loads_faithful hfs
  exact ⟨d, he, identities_listed hperm hfiles, fs, hperm, hfiles, hids⟩

end Faithful

/-- A directory with an empty file and something that is no file, a file with a CR LF pair, and
one with a line break alone. -/
def nested : Except String (List FsEntry) :=
  .ok [.dir "s" (.ok [.file "e" (.ok []), .special "x"]), .file "f" (.ok ['a', '\r', '\n', 'b']),
    .file "g" (.ok ['\u2028'])]

theorem loading_faithful_nested : ∃ d,
    SharDirectory.new nested [.rootDir, .normal "d"] 0 = some (.ok (d, 5)) ∧
    LoadedTree [.rootDir, .normal "d"] (readFiles nested) d 5 := by
  have hr : Readable nested := by simp [nested, Readable, ReadableBelow, ReadableEntry]
  have hn : chars (readFiles nested) = 5 := rfl
  obtain ⟨d, he, hd⟩ := loading_faithful nested [.rootDir, .normal "d"] hr (by rw [hn]; decide)
  exact ⟨d, hn ▸ he, hn ▸ hd⟩

end FaithfulLoading
