import Mathlib.Data.List.TakeWhile
import Shario.FileTree

/-! `SharDirectory` of `tree.rs`: the files of a shar and the routing of a path to one of
them. A `&mut SharFile` is a `FileRef`, its place in the tree. -/
namespace DirectoryTree

open CrdtTypes FileTree

inductive SharDirectory where
  | mk (dirName : PathBuf) (subDir : List SharDirectory) (subFiles : List SharFile)

/-- Indices of subdirectories, then the index of the file. -/
abbrev FileRef := List ℕ × ℕ

namespace SharDirectory

def dirName : SharDirectory → PathBuf
  | .mk dirName _ _ => dirName

mutual

/-- The components before this directory's own name are dropped, at each level anew. -/
def findFile : SharDirectory → PathBuf → Option FileRef
  | .mk dirName subDir subFiles, path =>
    if subDir.isEmpty && subFiles.isEmpty then none
    else
      match fileName dirName with
      | none => none
      | some thisDirName =>
        match path.dropWhile (· != thisDirName) with
        | _ :: [next] => (subFiles.findIdx? (endsWith ·.filePath next)).map ([], ·)
        | _ :: next :: _ => findDir subDir 0 next path
        | _ => none

def findDir : List SharDirectory → ℕ → Component → PathBuf → Option FileRef
  | [], _, _, _ => none
  | dir :: dirs, i, next, path =>
    if endsWith dir.dirName next then (dir.findFile path).map fun ref => (i :: ref.1, ref.2)
    else findDir dirs (i + 1) next path

end

def fileAt : SharDirectory → List ℕ → ℕ → Option SharFile
  | .mk _ _ subFiles, [], j => subFiles[j]?
  | .mk _ subDir _, i :: is, j => subDir[i]?.bind (fileAt · is j)

def getFile (d : SharDirectory) (ref : FileRef) : Option SharFile := d.fileAt ref.1 ref.2

def replaceAt : SharDirectory → List ℕ → ℕ → SharFile → SharDirectory
  | .mk dirName subDir subFiles, [], j, f => .mk dirName subDir (subFiles.set j f)
  | .mk dirName subDir subFiles, i :: is, j, f =>
    .mk dirName (subDir.modify i (replaceAt · is j f)) subFiles

def setFile (d : SharDirectory) (ref : FileRef) (f : SharFile) : SharDirectory :=
  d.replaceAt ref.1 ref.2 f

def addCrdt (d : SharDirectory) (filePath : PathBuf) (lineNum : ℕ) (crdt : CRDT) :
    Option (Outcome × SharDirectory) :=
  match d.findFile filePath with
  | some ref => do
    let (o, f) ← (← d.getFile ref).addCrdt lineNum crdt
    some (o, d.setFile ref f)
  | none => some (.error (.generic "File not found"), d)

def removeCrdt (d : SharDirectory) (filePath : PathBuf) (lineNum : ℕ) (x : Identity) :
    Option (Outcome × SharDirectory) :=
  match d.findFile filePath with
  | some ref => do
    let (o, f) ← (← d.getFile ref).removeCrdt lineNum x
    some (o, d.setFile ref f)
  | none => some (.error (.generic "File not found"), d)

def predecessorIdentity (d : SharDirectory) (filePath : PathBuf) (position : Position) :
    Except Error (Option Identity) :=
  match (d.findFile filePath).bind d.getFile with
  | some f => .ok (FileTree.predecessorIdentity f.projection position)
  | none => .error (.generic "File not found")

mutual

/-- The files in the order in which `full_state` and `identities` list them. -/
def files : SharDirectory → List SharFile
  | .mk _ subDir subFiles => subFiles ++ filesBelow subDir

def filesBelow : List SharDirectory → List SharFile
  | [] => []
  | dir :: dirs => dir.files ++ filesBelow dirs

end

def fullState (d : SharDirectory) : List (PathBuf × Characters) :=
  d.files.map fun file => (file.filePath, file.fullState)

def identities (d : SharDirectory) : Option (List (PathBuf × List (List (Identity × Char)))) :=
  d.files.mapM fun file => file.identitiesWithValues.map (file.filePath, ·)

end SharDirectory

/-- What the directory iterator and the reads of `new` find. -/
inductive FsEntry where
  | dir (name : String) (read : Except String (List FsEntry))
  | file (name : String) (read : Except String (List Char))
  | special (name : String)
  | badEntry (e : String)
  | badType (name : String) (e : String)

abbrev Listing := List SharDirectory × List SharFile × ℕ

mutual

def SharDirectory.new : (read : Except String (List FsEntry)) → (dirPath : PathBuf) →
    (counter : ℕ) → Option (Except Error (SharDirectory × ℕ))
  | .error e, _, _ => some (.error (.readFail s!"Failed to read directory, try again: \n {e} \n"))
  | .ok entries, dirPath, counter => do
    match ← loadEntries entries dirPath ([], [], counter) with
    | .error e => some (.error e)
    | .ok (subDir, subFiles, counter) => some (.ok (.mk dirPath subDir subFiles, counter))

/-- The loop `for entry in entries`; `?` leaves it at the first error. -/
def loadEntries : List FsEntry → (dirPath : PathBuf) → Listing → Option (Except Error Listing)
  | [], _, listing => some (.ok listing)
  | entry :: entries, dirPath, listing => do
    match ← loadEntry entry dirPath listing with
    | .error e => some (.error e)
    | .ok listing => loadEntries entries dirPath listing

def loadEntry : FsEntry → (dirPath : PathBuf) → Listing → Option (Except Error Listing)
  | .dir name read, dirPath, (subDir, subFiles, counter) => do
    match ← SharDirectory.new read (dirPath ++ [.normal name]) counter with
    | .error e => some (.error e)
    | .ok (dir, counter) => some (.ok (subDir ++ [dir], subFiles, counter))
  | .file name read, dirPath, (subDir, subFiles, counter) => do
    match ← SharFile.new (dirPath ++ [.normal name]) read counter with
    | .error e => some (.error e)
    | .ok (file, counter) => some (.ok (subDir, subFiles ++ [file], counter))
  | .special _, _, listing => some (.ok listing)
  | .badEntry e, _, _ => some (.error (.readFail s!"Failed to read directory entry: \n {e} \n"))
  | .badType _ e, _, _ => some (.error (.readFail s!"Failed to read entry type: \n {e} \n"))

end

namespace SharDirectory

variable {d : SharDirectory} {ref ref' : FileRef} {f g : SharFile} {path : PathBuf}

theorem findDir_some : ∀ {dirs : List SharDirectory} {k : ℕ} {next : Component} {ref : FileRef},
    findDir dirs k next path = some ref →
    ∃ i dir is, dirs[i]? = some dir ∧ endsWith dir.dirName next = true ∧
      dir.findFile path = some (is, ref.2) ∧ ref.1 = (k + i) :: is := by
  intro dirs
  induction dirs with
  | nil => intro k next ref h; simp [findDir] at h
  | cons dir dirs ih =>
    intro k next ref h
    rw [findDir] at h
    by_cases hn : endsWith dir.dirName next = true
    · rw [if_pos hn, Option.map_eq_some_iff] at h
      obtain ⟨r, hr, rfl⟩ := h
      exact ⟨0, dir, r.1, rfl, hn, hr, rfl⟩
    · rw [if_neg hn] at h
      obtain ⟨i, dir', is, hi, hd, hf, hk⟩ := ih h
      exact ⟨i + 1, dir', is, hi, hd, hf, by rw [hk]; congr 1; omega⟩

theorem findFile_cases {dirName : PathBuf} {subDir : List SharDirectory}
    {subFiles : List SharFile} (h : findFile (.mk dirName subDir subFiles) path = some ref) :
    ∃ this pre next rest, fileName dirName = some this ∧ path = pre ++ this :: next :: rest ∧
      this ∉ pre ∧
      (rest = [] ∧ ref.1 = [] ∧ subFiles.findIdx? (endsWith ·.filePath next) = some ref.2 ∨
       rest ≠ [] ∧ findDir subDir 0 next path = some ref) := by
  rw [findFile] at h
  by_cases he : (subDir.isEmpty && subFiles.isEmpty) = true
  · simp [he] at h
  rw [if_neg he] at h
  cases hname : fileName dirName with
  | none => simp [hname] at h
  | some this =>
    simp only [hname] at h
    have hcut := List.takeWhile_append_dropWhile (p := (· != this)) (l := path)
    have hpre : this ∉ path.takeWhile (· != this) := fun hin => by
      simpa using List.mem_takeWhile_imp hin
    have hhead : ∀ c rest, path.dropWhile (· != this) = c :: rest → c = this := by
      intro c rest hd
      have hc := List.head_dropWhile_not (· != this) (by simp [hd] : path.dropWhile _ ≠ [])
      simpa [hd] using hc
    split at h
    · rename_i c next hd
      obtain rfl : c = this := hhead c _ hd
      rw [Option.map_eq_some_iff] at h
      obtain ⟨j, hj, rfl⟩ := h
      exact ⟨_, _, next, [], rfl, by rw [← hd, hcut], hpre, Or.inl ⟨rfl, rfl, hj⟩⟩
    · rename_i c next rest hne hd
      obtain rfl : c = this := hhead c _ hd
      exact ⟨_, _, next, rest, rfl, by rw [← hd, hcut], hpre, Or.inr ⟨hne, h⟩⟩
    · simp at h

theorem fileAt_of_findFile : ∀ {is : List ℕ} {j : ℕ} {d : SharDirectory},
    d.findFile path = some (is, j) → ∃ f, d.fileAt is j = some f := by
  intro is
  induction is with
  | nil =>
    rintro j ⟨dirName, subDir, subFiles⟩ h
    obtain ⟨_, _, next, _, _, _, _, ⟨_, _, hj⟩ | ⟨_, hd⟩⟩ := findFile_cases h
    · obtain ⟨hlt, _⟩ := List.findIdx?_eq_some_iff_getElem.mp hj
      exact ⟨_, List.getElem?_eq_getElem hlt⟩
    · obtain ⟨i, dir, is, _, _, _, hk⟩ := findDir_some hd
      simp at hk
  | cons i is ih =>
    rintro j ⟨dirName, subDir, subFiles⟩ h
    obtain ⟨_, _, next, _, _, _, _, ⟨_, hnil, _⟩ | ⟨_, hd⟩⟩ := findFile_cases h
    · simp at hnil
    · obtain ⟨k, dir, is', hk, _, hf, he⟩ := findDir_some hd
      simp only [Nat.zero_add, List.cons.injEq] at he
      obtain ⟨rfl, rfl⟩ := he
      simpa [fileAt, hk] using ih hf

theorem getFile_of_findFile (h : d.findFile path = some ref) : ∃ f, d.getFile ref = some f :=
  fileAt_of_findFile h

theorem getFile_setFile_self (h : d.getFile ref = some f) :
    (d.setFile ref g).getFile ref = some g := by
  obtain ⟨is, j⟩ := ref
  simp only [getFile, setFile] at h ⊢
  induction is generalizing d with
  | nil =>
    obtain ⟨dirName, subDir, subFiles⟩ := d
    simp only [fileAt, replaceAt] at h ⊢
    rw [List.getElem?_set_self (List.getElem?_eq_some_iff.mp h).1]
  | cons i is ih =>
    obtain ⟨dirName, subDir, subFiles⟩ := d
    simp only [fileAt, replaceAt, Option.bind_eq_some_iff] at h ⊢
    obtain ⟨dir, hdir, h⟩ := h
    exact ⟨_, by rw [List.getElem?_modify, hdir]; simp, ih h⟩

theorem getFile_setFile_ne (hne : ref' ≠ ref) : (d.setFile ref g).getFile ref' = d.getFile ref' := by
  obtain ⟨is, j⟩ := ref
  obtain ⟨is', j'⟩ := ref'
  simp only [getFile, setFile]
  induction is generalizing is' d with
  | nil =>
    obtain ⟨dirName, subDir, subFiles⟩ := d
    cases is' with
    | nil =>
      have hj : j ≠ j' := fun h => hne (by rw [h])
      simp [fileAt, replaceAt, List.getElem?_set_ne hj]
    | cons i' is' => simp [fileAt, replaceAt]
  | cons i is ih =>
    obtain ⟨dirName, subDir, subFiles⟩ := d
    cases is' with
    | nil => simp [fileAt, replaceAt]
    | cons i' is' =>
      simp only [fileAt, replaceAt, List.getElem?_modify]
      by_cases hi : i = i'
      · subst hi
        have hne' : (is', j') ≠ (is, j) := fun h => hne (by
          rw [Prod.mk.injEq] at h ⊢
          exact ⟨by rw [h.1], h.2⟩)
        cases hdir : subDir[i]? with
        | none => rfl
        | some dir => simpa using ih is' hne'
      · cases hdir : subDir[i']? with
        | none => rfl
        | some dir => simp [hi]

theorem findDir_congr : ∀ (A : List SharDirectory) {B : List SharDirectory}
    {dir dir' : SharDirectory} (k : ℕ) (next : Component), dir'.dirName = dir.dirName →
    dir'.findFile path = dir.findFile path →
    findDir (A ++ dir' :: B) k next path = findDir (A ++ dir :: B) k next path := by
  intro A
  induction A with
  | nil => intro B dir dir' k next hn hf; simp [findDir, hn, hf]
  | cons a A ih =>
    intro B dir dir' k next hn hf
    simp only [List.cons_append, findDir]
    rw [ih (k + 1) next hn hf]

theorem dirName_setFile : (d.setFile ref g).dirName = d.dirName := by
  obtain ⟨is, j⟩ := ref
  obtain ⟨dirName, subDir, subFiles⟩ := d
  cases is <;> rfl

theorem findFile_setFile (h : d.getFile ref = some f) (hp : g.filePath = f.filePath) :
    (d.setFile ref g).findFile path = d.findFile path := by
  obtain ⟨is, j⟩ := ref
  simp only [getFile, setFile] at h ⊢
  induction is generalizing d with
  | nil =>
    obtain ⟨dirName, subDir, subFiles⟩ := d
    obtain ⟨A, B, rfl, rfl⟩ := RowLayout.split_at_index h
    have hidx : ∀ next, (A ++ g :: B).findIdx? (endsWith ·.filePath next) =
        (A ++ f :: B).findIdx? (endsWith ·.filePath next) := by
      intro next
      simp [List.findIdx?_append, List.findIdx?_cons, hp]
    simp [replaceAt, findFile, hidx]
  | cons i is ih =>
    obtain ⟨dirName, subDir, subFiles⟩ := d
    simp only [fileAt, Option.bind_eq_some_iff] at h
    obtain ⟨dir, hdir, h⟩ := h
    obtain ⟨A, B, rfl, rfl⟩ := RowLayout.split_at_index hdir
    have hset : (A ++ dir :: B).modify A.length (replaceAt · is j g) =
        A ++ dir.replaceAt is j g :: B := by
      rw [List.modify_eq_set_getElem?]
      simp
    have hname : (dir.replaceAt is j g).dirName = dir.dirName := by
      cases dir
      cases is <;> rfl
    simp only [replaceAt, findFile, hset]
    rw [show (A ++ dir.replaceAt is j g :: B).isEmpty = (A ++ dir :: B).isEmpty by
      cases A <;> rfl]
    simp only [findDir_congr A _ _ hname (ih h)]

end SharDirectory

end DirectoryTree
