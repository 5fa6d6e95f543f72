import Shario.SinglePlace
import Shario.PathRouting

/-! Loading a directory: which ids the characters of a file get, and how that depends on the
order in which the file system lists the entries. -/
namespace GenesisOrder

open CrdtTypes FileTree CharacterTree FilePlacement FileSafety SinglePlace DirectoryTree PathRouting

/-- The ids that `n` characters get from the counter `c` on. -/
def genesisIds (c n : ℕ) : List Identity := (List.range' (c + 1) n).map (·, 0)

def write (m : Characters) (prevId c : ℕ) : List Char → Characters
  | [] => m
  | ch :: contents => write (m.insert (c + 1, 0) (.new ch prevId 0)) (c + 1) (c + 1) contents

/-- The file ends with `prev`, and no id is above `c`. -/
structure EndsWith (f : SharFile) (prev : Identity) (c : ℕ) : Prop where
  sound : Sound f
  live : Live f.characters prev
  last : ∃ A u, f.projection = A ++ [u ++ [prev]]
  start : prev = root → f.projection = [[root]]
  below : ∀ x ∈ f.characters, x.1 ≤ c

theorem add_at_end {f : SharFile} {prevId c : ℕ} (h : EndsWith f (prevId, 0) c) (ch : Char)
    (line : ℕ) : ∃ o g, f.addCrdt line ⟨c + 1, 0, .new ch prevId 0⟩ = some (o, g) ∧
      EndsWith g (c + 1, 0) (c + 1) ∧ g.filePath = f.filePath ∧
      g.characters = f.characters.insert (c + 1, 0) (.new ch prevId 0) ∧
      g.projection.flatten = f.projection.flatten ++ [(c + 1, 0)] := by
  generalize hcrdt : (⟨c + 1, 0, .new ch prevId 0⟩ : CRDT) = crdt
  have hid : crdt.identity = (c + 1, 0) := by rw [← hcrdt]; rfl
  have hpar : crdt.relation.parent = (prevId, 0) := by rw [← hcrdt]; rfl
  have hrel : crdt.relation = .new ch prevId 0 := by rw [← hcrdt]
  obtain ⟨A, u, hrows⟩ := h.last
  have hplace : Place f crdt.relation.parent A (u ++ [(prevId, 0)]) [] [] := by
    rw [hpar]
    by_cases hr : ((prevId, 0) : Identity) = root
    · have hstart := h.start hr
      rw [hrows, hr] at hstart
      rw [hr] at hrows ⊢
      obtain ⟨rfl, rfl⟩ : A = [] ∧ u = [] := by
        cases A with
        | nil => simpa using hstart
        | cons r A => simp at hstart
      exact .root hrows
    · exact .live hr h.live hrows
  have hnew : crdt.identity ∉ f.characters := by
    intro hin
    have hle := h.below _ hin
    rw [hid] at hle
    omega
  have hends : ∀ o p, f.addCrdt line crdt = some (o, landed f crdt p) →
      (∃ A u, p = A ++ [u ++ [(c + 1, 0)]]) → EndsWith (landed f crdt p) (c + 1, 0) (c + 1) := by
    intro o p he hlast
    refine ⟨?_, ?_, hlast, fun hr => absurd hr (by simp [root]), fun x hx => ?_⟩
    · obtain ⟨o', g, he', hg⟩ := add_total h.sound crdt line
      rw [he, Option.some.injEq, Prod.mk.injEq] at he'
      exact he'.2 ▸ hg
    · rw [← hid]
      exact live_insert_self.mpr (by rw [hrel]; rfl)
    · rcases Finmap.mem_insert.mp hx with rfl | hx
      · rw [hid]
      · exact (h.below x hx).trans (Nat.le_succ c)
  have hchars : ∀ p, (landed f crdt p).characters =
      f.characters.insert (c + 1, 0) (.new ch prevId 0) := by
    intro p
    rw [← hid, ← hrel]
    rfl
  cases hb : isLineBreak crdt.relation.value with
  | true =>
    have he := add_line_at h.sound hplace (hpar ▸ h.live) hnew hb line
    refine ⟨_, _, he, hends _ _ he ⟨A ++ [u ++ [(prevId, 0)]], [], ?_⟩, rfl, hchars _, ?_⟩
    · simp [hid]
    · simp [landed, hrows, hid]
  | false =>
    have he := add_char_at h.sound hplace (fun _ => by simp) hnew hb line
    refine ⟨_, _, he, hends _ _ he ⟨A, u ++ [(prevId, 0)], ?_⟩, rfl, hchars _, ?_⟩
    · simp [hid]
    · simp [landed, hrows, hid]

theorem addChars_writes : ∀ (contents : List Char) {f f' : SharFile} {line prevId c n : ℕ},
    EndsWith f (prevId, 0) c → addChars f line prevId c contents = some (f', n) →
    n = c + contents.length ∧ f'.filePath = f.filePath ∧
      f'.characters = write f.characters prevId c contents ∧
      f'.projection.flatten = f.projection.flatten ++ genesisIds c contents.length := by
  intro contents
  induction contents with
  | nil =>
    intro f f' line prevId c n _ he
    simp only [addChars, Option.some.injEq, Prod.mk.injEq] at he
    obtain ⟨rfl, rfl⟩ := he
    exact ⟨rfl, rfl, rfl, by simp [genesisIds]⟩
  | cons ch contents ih =>
    intro f f' line prevId c n h he
    simp only [addChars, Option.bind_eq_bind, Option.bind_eq_some_iff, tick_eq_some] at he
    obtain ⟨id, ⟨_, rfl⟩, ⟨o, g⟩, hg, he⟩ := he
    obtain ⟨o', g', hg', hends, hpath, hchars, hflat⟩ := add_at_end h ch line
    rw [hg', Option.some.injEq, Prod.mk.injEq] at hg
    obtain ⟨rfl, rfl⟩ := hg
    obtain ⟨hn, hpath', hchars', hflat'⟩ := ih hends he
    refine ⟨?_, hpath'.trans hpath, ?_, ?_⟩
    · rw [hn, List.length_cons]
      omega
    · rw [hchars', hchars]
      rfl
    · rw [hflat', hflat, List.append_assoc, List.length_cons]
      simp [genesisIds, List.range'_succ]

theorem emptyFile_ends (path : PathBuf) (c : ℕ) : EndsWith (emptyFile path) (0, 0) c := by
  have hs := emptyFile_sound path
  refine ⟨hs, hs.rooted.root_live, ⟨[], [], rfl⟩, fun _ => rfl, fun x hx => ?_⟩
  rcases Finmap.mem_insert.mp hx with rfl | hx
  · exact Nat.zero_le c
  · exact absurd hx Finmap.notMem_empty

theorem new_writes {path : PathBuf} {contents : List Char} {c n : ℕ} {f : SharFile}
    (he : SharFile.new path (.ok contents) c = some (.ok (f, n))) :
    n = c + contents.length ∧ f.filePath = path ∧
      f.characters = write (emptyFile path).characters 0 c contents ∧
      f.projection.flatten = root :: genesisIds c contents.length := by
  simp only [SharFile.new, Option.bind_eq_bind, Option.bind_eq_some_iff, Option.some.injEq,
    Except.ok.injEq] at he
  obtain ⟨_, he, rfl⟩ := he
  exact addChars_writes contents (emptyFile_ends path c) he

/-- The `k`-th character of the document, with its value and its parent. -/
def charAt (f : SharFile) (k : ℕ) : Option (Identity × Char × Identity) :=
  (f.projection.flatten)[k]?.bind fun x =>
    (f.characters.lookup x).map fun rel => (x, rel.value, rel.parent)

theorem charAt_agree_iff {path path' : PathBuf} {contents : List Char} {c c' n n' : ℕ}
    {f g : SharFile} (hf : SharFile.new path (.ok contents) c = some (.ok (f, n)))
    (hg : SharFile.new path' (.ok contents) c' = some (.ok (g, n'))) :
    (∀ k, charAt f k = charAt g k) ↔ (contents ≠ [] → c = c') := by
  obtain ⟨_, _, hchars, hflat⟩ := new_writes hf
  obtain ⟨_, _, hchars', hflat'⟩ := new_writes hg
  have hfirst : ∀ {h : SharFile} {a : ℕ}, Sound h → contents ≠ [] →
      h.projection.flatten = root :: genesisIds a contents.length →
      ∃ v, charAt h 1 = some ((a + 1, 0), v) := by
    intro h a hs hne hflat
    obtain ⟨ch, rest, rfl⟩ := List.exists_cons_of_ne_nil hne
    have hin : ((a + 1, 0) : Identity) ∈ h.projection.flatten := by
      rw [hflat]
      simp [genesisIds, List.range'_succ]
    obtain ⟨rel, hrel⟩ := Finmap.mem_iff.mp (hs.known _ hin)
    refine ⟨(rel.value, rel.parent), ?_⟩
    simp [charAt, hflat, genesisIds, List.range'_succ, hrel]
  constructor
  · intro h hne
    obtain ⟨v, hv⟩ := hfirst (loaded_sound ⟨_, _, _, _, hf⟩) hne hflat
    obtain ⟨v', hv'⟩ := hfirst (loaded_sound ⟨_, _, _, _, hg⟩) hne hflat'
    have h1 := h 1
    rw [hv, hv', Option.some.injEq, Prod.mk.injEq, Prod.mk.injEq] at h1
    omega
  · intro h k
    have hcc : contents = [] ∨ c = c' := by
      by_cases hne : contents = []
      · exact Or.inl hne
      · exact Or.inr (h hne)
    unfold charAt
    rw [hchars, hchars', hflat, hflat']
    rcases hcc with rfl | rfl <;> rfl

mutual

/-- The files below a directory with their contents, in the order in which `new` reads them.
The paths start below the directory. -/
def readFiles : Except String (List FsEntry) → List (PathBuf × List Char)
  | .error _ => []
  | .ok entries => entriesFiles entries

def entriesFiles : List FsEntry → List (PathBuf × List Char)
  | [] => []
  | entry :: entries => entryFiles entry ++ entriesFiles entries

def entryFiles : FsEntry → List (PathBuf × List Char)
  | .dir name read => (readFiles read).map fun x => (.normal name :: x.1, x.2)
  | .file name (.ok contents) => [([.normal name], contents)]
  | _ => []

end

def chars (files : List (PathBuf × List Char)) : ℕ := (files.map (·.2.length)).sum

/-- Loading the files one after the other, from the counter `c` on. -/
inductive Loads (dirPath : PathBuf) : ℕ → List (PathBuf × List Char) → List SharFile → Prop where
  | nil {c} : Loads dirPath c [] []
  | cons {c r contents files f fs n} :
      SharFile.new (dirPath ++ r) (.ok contents) c = some (.ok (f, n)) →
      Loads dirPath (c + contents.length) files fs →
      Loads dirPath c ((r, contents) :: files) (f :: fs)

section Traversal

variable {dirPath : PathBuf} {files files' : List (PathBuf × List Char)} {f : SharFile}
  {fs fs' : List SharFile} {c : ℕ}

@[simp] theorem chars_nil : chars [] = 0 := rfl

@[simp] theorem chars_cons (r : PathBuf) (contents : List Char) :
    chars ((r, contents) :: files) = contents.length + chars files := by
  simp [chars]

@[simp] theorem chars_append : chars (files ++ files') = chars files + chars files' := by
  simp [chars]

theorem chars_below (name : Component) :
    chars (files.map fun x => (name :: x.1, x.2)) = chars files := by
  simp [chars, Function.comp_def]

theorem loads_append (h : Loads dirPath c files fs)
    (h' : Loads dirPath (c + chars files) files' fs') :
    Loads dirPath c (files ++ files') (fs ++ fs') := by
  induction h with
  | nil => simpa using h'
  | cons hf _ ih =>
    rw [chars_cons, ← Nat.add_assoc] at h'
    exact .cons hf (ih h')

theorem loads_below (name : Component) (h : Loads (dirPath ++ [name]) c files fs) :
    Loads dirPath c (files.map fun x => (name :: x.1, x.2)) fs := by
  induction h with
  | nil => exact .nil
  | cons hf _ ih =>
    rw [List.append_assoc] at hf
    exact .cons hf ih

/-- What the listing holds beside what it held before. -/
def Gains (dirPath : PathBuf) (files : List (PathBuf × List Char)) (listing listing' : Listing) :
    Prop :=
  listing'.2.2 = listing.2.2 + chars files ∧
    ∃ fs, Loads dirPath listing.2.2 files fs ∧
      ∀ f, f ∈ listing'.2.1 ++ SharDirectory.filesBelow listing'.1 ↔
        f ∈ listing.2.1 ++ SharDirectory.filesBelow listing.1 ∨ f ∈ fs

theorem gains_nothing (listing : Listing) : Gains dirPath [] listing listing :=
  ⟨by simp, [], .nil, by simp⟩

theorem gains_append {l l' l'' : Listing} (h : Gains dirPath files l l')
    (h' : Gains dirPath files' l' l'') : Gains dirPath (files ++ files') l l'' := by
  obtain ⟨hn, fs, hfs, hmem⟩ := h
  obtain ⟨hn', fs', hfs', hmem'⟩ := h'
  refine ⟨?_, fs ++ fs', loads_append hfs (hn ▸ hfs'), fun f => ?_⟩
  · rw [hn', hn, chars_append, Nat.add_assoc]
  · simp only [hmem' f, hmem f, List.mem_append, or_assoc]

theorem mem_filesBelow_append (dirs : List SharDirectory) (dir : SharDirectory) :
    f ∈ SharDirectory.filesBelow (dirs ++ [dir]) ↔
      f ∈ SharDirectory.filesBelow dirs ∨ f ∈ dir.files := by
  induction dirs with
  | nil => simp [SharDirectory.filesBelow]
  | cons d dirs ih => simp [SharDirectory.filesBelow, ih, or_assoc]

end Traversal

mutual

/-- `new` reads the files one after the other with one counter. -/
theorem new_loads : ∀ (read : Except String (List FsEntry)) (dirPath : PathBuf) (c n : ℕ)
    (d : SharDirectory), SharDirectory.new read dirPath c = some (.ok (d, n)) →
    n = c + chars (readFiles read) ∧
      ∃ fs, Loads dirPath c (readFiles read) fs ∧ ∀ f, f ∈ d.files ↔ f ∈ fs
  | .error e, dirPath, c, n, d, h => by simp [SharDirectory.new] at h
  | .ok entries, dirPath, c, n, d, h => by
    simp only [SharDirectory.new, Option.bind_eq_bind, Option.bind_eq_some_iff] at h
    obtain ⟨r, hr, h⟩ := h
    cases r with
    | error e => simp at h
    | ok listing =>
      simp only [Option.some.injEq, Except.ok.injEq, Prod.mk.injEq] at h
      obtain ⟨rfl, rfl⟩ := h
      obtain ⟨hn, fs, hfs, hmem⟩ := loadEntries_gains entries dirPath ([], [], c) listing hr
      refine ⟨hn, fs, hfs, fun f => ?_⟩
      rw [SharDirectory.files, hmem f]
      simp [SharDirectory.filesBelow]

theorem loadEntries_gains : ∀ (entries : List FsEntry) (dirPath : PathBuf)
    (listing listing' : Listing), loadEntries entries dirPath listing = some (.ok listing') →
    Gains dirPath (entriesFiles entries) listing listing'
  | [], dirPath, listing, listing', h => by
    simp only [loadEntries, Option.some.injEq, Except.ok.injEq] at h
    exact h ▸ gains_nothing listing
  | entry :: entries, dirPath, listing, listing', h => by
    simp only [loadEntries, Option.bind_eq_bind, Option.bind_eq_some_iff] at h
    obtain ⟨r, hr, h⟩ := h
    cases r with
    | error e => simp at h
    | ok next =>
      exact gains_append (loadEntry_gains entry dirPath listing next hr)
        (loadEntries_gains entries dirPath next listing' h)

theorem loadEntry_gains : ∀ (entry : FsEntry) (dirPath : PathBuf) (listing listing' : Listing),
    loadEntry entry dirPath listing = some (.ok listing') →
    Gains dirPath (entryFiles entry) listing listing'
  | .dir name read, dirPath, (subDir, subFiles, c), listing', h => by
    simp only [loadEntry, Option.bind_eq_bind, Option.bind_eq_some_iff] at h
    obtain ⟨r, hr, h⟩ := h
    cases r with
    | error e => simp at h
    | ok dn =>
      obtain ⟨dir, n⟩ := dn
      simp only [Option.some.injEq, Except.ok.injEq] at h
      obtain ⟨hn, fs, hfs, hmem⟩ := new_loads read _ _ _ _ hr
      rw [← h, entryFiles]
      refine ⟨?_, fs, loads_below _ hfs, fun f => ?_⟩
      · rw [chars_below, ← hn]
      · rw [List.mem_append, List.mem_append, mem_filesBelow_append, hmem f, or_assoc]
  | .file name read, dirPath, (subDir, subFiles, c), listing', h => by
    simp only [loadEntry, Option.bind_eq_bind, Option.bind_eq_some_iff] at h
    obtain ⟨r, hr, h⟩ := h
    cases read with
    | error e =>
      simp only [SharFile.new, Option.some.injEq] at hr
      simp [← hr] at h
    | ok contents =>
      cases r with
      | error e => simp at h
      | ok fn =>
        obtain ⟨f, n⟩ := fn
        simp only [Option.some.injEq, Except.ok.injEq] at h
        rw [← h, entryFiles]
        refine ⟨?_, [f], .cons hr .nil, fun g => ?_⟩
        · rw [(new_writes hr).1]
          simp
        · simp only [List.mem_append, or_assoc]
          apply or_congr_right
          apply or_comm
  | .special name, dirPath, listing, listing', h => by
    simp only [loadEntry, Option.some.injEq, Except.ok.injEq] at h
    exact h ▸ gains_nothing listing
  | .badEntry e, dirPath, listing, listing', h => by simp [loadEntry] at h
  | .badType name e, dirPath, listing, listing', h => by simp [loadEntry] at h

end

/-- The same entries, listed in another order in any of the directories. -/
inductive Reordered : List FsEntry → List FsEntry → Prop where
  | nil : Reordered [] []
  | cons {entries entries'} (entry : FsEntry) : Reordered entries entries' →
      Reordered (entry :: entries) (entry :: entries')
  | swap (a b : FsEntry) (entries : List FsEntry) :
      Reordered (a :: b :: entries) (b :: a :: entries)
  | inside {below below'} (name : String) (entries : List FsEntry) : Reordered below below' →
      Reordered (.dir name (.ok below) :: entries) (.dir name (.ok below') :: entries)
  | trans {entries entries' entries''} : Reordered entries entries' →
      Reordered entries' entries'' → Reordered entries entries''

theorem reordered_perm {entries entries' : List FsEntry} (h : Reordered entries entries') :
    (entriesFiles entries).Perm (entriesFiles entries') := by
  induction h with
  | nil => exact List.Perm.refl _
  | cons entry _ ih => exact ih.append_left _
  | swap a b entries =>
    simp only [entriesFiles, ← List.append_assoc]
    exact List.perm_append_comm.append_right _
  | inside name entries _ ih =>
    simp only [entriesFiles, entryFiles, readFiles]
    exact (ih.map _).append_right _
  | trans _ _ ih ih' => exact ih.trans ih'

theorem entry_first {entry : FsEntry} {x : PathBuf × List Char} (h : x ∈ entryFiles entry) :
    ∃ name rest, entryName entry = some name ∧ x.1 = .normal name :: rest := by
  cases entry with
  | dir name read =>
    obtain ⟨y, _, rfl⟩ := List.mem_map.mp h
    exact ⟨name, y.1, rfl, rfl⟩
  | file name read =>
    cases read with
    | error e => simp [entryFiles] at h
    | ok contents =>
      rw [entryFiles, List.mem_singleton] at h
      exact ⟨name, [], rfl, by rw [h]⟩
  | special name => simp [entryFiles] at h
  | badEntry e => simp [entryFiles] at h
  | badType name e => simp [entryFiles] at h

theorem entries_first : ∀ {entries : List FsEntry} {x : PathBuf × List Char},
    x ∈ entriesFiles entries →
    ∃ name rest, name ∈ entries.filterMap entryName ∧ x.1 = .normal name :: rest := by
  intro entries
  induction entries with
  | nil => intro x h; simp [entriesFiles] at h
  | cons entry entries ih =>
    intro x h
    rcases List.mem_append.mp h with h | h
    · obtain ⟨name, rest, hname, hx⟩ := entry_first h
      exact ⟨name, rest, List.mem_filterMap.mpr ⟨entry, by simp, hname⟩, hx⟩
    · obtain ⟨name, rest, hname, hx⟩ := ih h
      obtain ⟨e, he, hname⟩ := List.mem_filterMap.mp hname
      exact ⟨name, rest, List.mem_filterMap.mpr ⟨e, by simp [he], hname⟩, hx⟩

mutual

theorem paths_distinct : ∀ (read : Except String (List FsEntry)), DistinctNames read →
    ((readFiles read).map Prod.fst).Nodup
  | .error e, _ => by simp [readFiles]
  | .ok entries, h => entries_paths_distinct entries h.1 h.2

theorem entries_paths_distinct : ∀ (entries : List FsEntry),
    (entries.filterMap entryName).Nodup → DistinctBelow entries →
    ((entriesFiles entries).map Prod.fst).Nodup
  | [], _, _ => by simp [entriesFiles]
  | entry :: entries, hn, hd => by
    have htail : (entries.filterMap entryName).Nodup :=
      hn.sublist ((List.sublist_cons_self entry entries).filterMap entryName)
    rw [entriesFiles, List.map_append, List.nodup_append']
    refine ⟨entry_paths_distinct entry hd.1, entries_paths_distinct entries htail hd.2, ?_⟩
    intro r hr hr'
    obtain ⟨x, hx, rfl⟩ := List.mem_map.mp hr
    obtain ⟨y, hy, hxy⟩ := List.mem_map.mp hr'
    obtain ⟨name, rest, hname, hxp⟩ := entry_first hx
    obtain ⟨name', rest', hname', hyp⟩ := entries_first hy
    obtain rfl : name = name' := by
      rw [hxp, hyp, List.cons.injEq, Component.normal.injEq] at hxy
      exact hxy.1.symm
    rw [List.filterMap_cons_some hname, List.nodup_cons] at hn
    exact hn.1 hname'

theorem entry_paths_distinct : ∀ (entry : FsEntry), DistinctEntry entry →
    ((entryFiles entry).map Prod.fst).Nodup
  | .dir name read, hd => by
    have h := paths_distinct read hd
    rw [entryFiles, List.map_map]
    have hmap : (readFiles read).map (Prod.fst ∘ fun x => (Component.normal name :: x.1, x.2)) =
        ((readFiles read).map Prod.fst).map (Component.normal name :: ·) := by
      simp [Function.comp_def]
    rw [hmap]
    exact h.map (List.cons_injective)
  | .file name (.ok contents), _ => by simp [entryFiles]
  | .file name (.error e), _ => by simp [entryFiles]
  | .special name, _ => by simp [entryFiles]
  | .badEntry e, _ => by simp [entryFiles]
  | .badType name e, _ => by simp [entryFiles]

end

def before : List (PathBuf × List Char) → PathBuf → ℕ
  | [], _ => 0
  | (r', contents) :: files, r => if r' = r then 0 else contents.length + before files r

/-- What stands at a path below `P` stands at the same path below `Q`, with the same `k`-th
character for every `k`. -/
def SameGenesis (P : PathBuf) (d : SharDirectory) (Q : PathBuf) (e : SharDirectory) : Prop :=
  ∀ r, ∀ f ∈ d.files, f.filePath = P ++ r →
    ∃ g ∈ e.files, g.filePath = Q ++ r ∧ ∀ k, charAt f k = charAt g k

section Agreement

variable {dirPath P Q : PathBuf} {files files' : List (PathBuf × List Char)} {f : SharFile}
  {fs fs' : List SharFile} {c : ℕ} {r : PathBuf} {contents : List Char}

theorem before_head : before ((r, contents) :: files) r = 0 := by
  simp [before]

theorem before_tail {r' : PathBuf} (h : r' ≠ r) :
    before ((r', contents) :: files) r = contents.length + before files r := by
  simp [before, h]

theorem loads_at (h : Loads dirPath c files fs) (hn : (files.map Prod.fst).Nodup)
    (hr : (r, contents) ∈ files) :
    ∃ f ∈ fs, ∃ n, SharFile.new (dirPath ++ r) (.ok contents) (c + before files r) =
      some (.ok (f, n)) := by
  induction h with
  | nil => simp at hr
  | cons hf _ ih =>
    rename_i c r₀ contents₀ files f fs n _
    rw [List.map_cons, List.nodup_cons] at hn
    rcases List.mem_cons.mp hr with heq | hr
    · rw [Prod.mk.injEq] at heq
      obtain ⟨rfl, rfl⟩ := heq
      exact ⟨f, by simp, n, by rwa [before_head]⟩
    · have hne : r₀ ≠ r := fun he => hn.1 (List.mem_map.mpr ⟨_, hr, he.symm⟩)
      obtain ⟨g, hg, n, he⟩ := ih hn.2 hr
      exact ⟨g, by simp [hg], n, by rwa [before_tail hne, ← Nat.add_assoc]⟩

theorem loads_from (h : Loads dirPath c files fs) (hn : (files.map Prod.fst).Nodup)
    (hf : f ∈ fs) :
    ∃ r contents n, (r, contents) ∈ files ∧ SharFile.new (dirPath ++ r) (.ok contents)
      (c + before files r) = some (.ok (f, n)) := by
  induction h with
  | nil => simp at hf
  | cons hnew _ ih =>
    rename_i c r₀ contents₀ files f₀ fs n _
    rw [List.map_cons, List.nodup_cons] at hn
    rcases List.mem_cons.mp hf with rfl | hf
    · exact ⟨r₀, contents₀, n, by simp, by rwa [before_head]⟩
    · obtain ⟨r, contents, n, hr, he⟩ := ih hn.2 hf
      have hne : r₀ ≠ r := fun heq => hn.1 (List.mem_map.mpr ⟨_, hr, heq.symm⟩)
      exact ⟨r, contents, n, by simp [hr], by rwa [before_tail hne, ← Nat.add_assoc]⟩

end Agreement

/-- Two enumerations of one directory agree on every character exactly when every file that is
not empty has as many characters before it in both. -/
theorem genesis_agree_iff {entries entries' : List FsEntry} {P Q : PathBuf}
    {d e : SharDirectory} {n n' : ℕ} (hr : Reordered entries entries')
    (hd : DistinctNames (.ok entries))
    (h : SharDirectory.new (.ok entries) P 0 = some (.ok (d, n)))
    (h' : SharDirectory.new (.ok entries') Q 0 = some (.ok (e, n'))) :
    SameGenesis P d Q e ↔ ∀ r contents, (r, contents) ∈ entriesFiles entries → contents ≠ [] →
      before (entriesFiles entries) r = before (entriesFiles entries') r := by
  have hperm := reordered_perm hr
  have hn := paths_distinct _ hd
  have hn' : ((entriesFiles entries').map Prod.fst).Nodup := (hperm.map _).nodup_iff.mp hn
  obtain ⟨_, fs, hfs, hmem⟩ := new_loads _ _ _ _ _ h
  obtain ⟨_, gs, hgs, hmem'⟩ := new_loads _ _ _ _ _ h'
  rw [readFiles] at hn hfs hgs
  -- A path and its content fix the file that each of the two loads makes of it.
  have hsame : ∀ {r : PathBuf} {contents contents' : List Char},
      (r, contents) ∈ entriesFiles entries → (r, contents') ∈ entriesFiles entries' →
      contents = contents' := by
    intro r contents contents' hin hin'
    exact congrArg Prod.snd (List.inj_on_of_nodup_map hn hin (hperm.mem_iff.mpr hin') rfl)
  constructor
  · intro hs r contents hin hne
    obtain ⟨f, hf, m, hnew⟩ := loads_at hfs hn hin
    obtain ⟨g, hg, hpath, hk⟩ := hs r f ((hmem f).mpr hf) (new_path hnew)
    obtain ⟨r', contents', m', hin', hnew'⟩ := loads_from hgs hn' ((hmem' g).mp hg)
    obtain rfl : r' = r := List.append_cancel_left ((new_path hnew').symm.trans hpath)
    obtain rfl := hsame hin hin'
    have hc := (charAt_agree_iff hnew hnew').mp hk hne
    omega
  · intro hs r f hf hpath
    obtain ⟨r', contents, m, hin, hnew⟩ := loads_from hfs hn ((hmem f).mp hf)
    obtain rfl : r' = r := List.append_cancel_left ((new_path hnew).symm.trans hpath)
    obtain ⟨g, hg, m', hnew'⟩ := loads_at hgs hn' (hperm.mem_iff.mp hin)
    refine ⟨g, (hmem' g).mpr hg, new_path hnew', ?_⟩
    apply (charAt_agree_iff hnew hnew').mpr
    intro hne
    rw [hs r' contents hin hne]

/-- Of two files of one character, each is read with the counter at 0 when it comes first. -/
theorem listed_order_matters :
    ∃ (P : PathBuf) (entries entries' : List FsEntry) (d e : SharDirectory) (n n' : ℕ),
      Reordered entries entries' ∧ DistinctNames (.ok entries) ∧
      SharDirectory.new (.ok entries) P 0 = some (.ok (d, n)) ∧
      SharDirectory.new (.ok entries') P 0 = some (.ok (e, n')) ∧ ¬ SameGenesis P d P e := by
  let f : FsEntry := .file "f" (.ok ['a'])
  let g : FsEntry := .file "g" (.ok ['b'])
  have hd : ∃ d, SharDirectory.new (.ok [f, g]) [.rootDir, .normal "d"] 0 = some (.ok (d, 2)) ∧
      ∃ f' ∈ d.files, f'.filePath = [.rootDir, .normal "d"] ++ [.normal "f"] ∧
        charAt f' 1 = some ((1, 0), 'a', root) :=
    ⟨_, rfl, _, List.mem_cons_self, rfl, rfl⟩
  have he : ∃ e, SharDirectory.new (.ok [g, f]) [.rootDir, .normal "d"] 0 = some (.ok (e, 2)) ∧
      ∀ g' ∈ e.files, charAt g' 1 ≠ some ((1, 0), 'a', root) := by
    refine ⟨_, rfl, fun g' hg => ?_⟩
    rcases List.mem_cons.mp hg with rfl | hg
    · decide
    · obtain rfl := List.mem_singleton.mp hg
      decide
  obtain ⟨d, hd, f', hf, hpath, hchar⟩ := hd
  obtain ⟨e, he, hg⟩ := he
  refine ⟨_, [f, g], [g, f], d, e, 2, 2, .swap f g [], ⟨by decide, trivial, trivial, trivial⟩,
    hd, he, fun hs => ?_⟩
  obtain ⟨g', hg', _, hk⟩ := hs _ f' hf hpath
  exact hg g' hg' ((hk 1).symm.trans hchar)

/-- An empty file may stand before or behind another one, here in a subdirectory of two roots. -/
theorem genesis_agree_iff_nested :
    ∃ (P Q : PathBuf) (entries entries' : List FsEntry) (d e : SharDirectory),
      entries ≠ entries' ∧ SharDirectory.new (.ok entries) P 0 = some (.ok (d, 2)) ∧
      SharDirectory.new (.ok entries') Q 0 = some (.ok (e, 2)) ∧ SameGenesis P d Q e := by
  let es : List FsEntry := [.file "e" (.ok []), .file "f" (.ok ['a', 'b'])]
  have hr : Reordered [.dir "s" (.ok es)] [.dir "s" (.ok es.reverse)] :=
    .inside "s" [] (.swap _ _ [])
  have hd : ∃ d, SharDirectory.new (.ok [.dir "s" (.ok es)]) [.rootDir, .normal "d"] 0 =
    some (.ok (d, 2)) := ⟨_, rfl⟩
  have he : ∃ e, SharDirectory.new (.ok [.dir "s" (.ok es.reverse)]) [.rootDir, .normal "x"] 0 =
    some (.ok (e, 2)) := ⟨_, rfl⟩
  obtain ⟨d, hd⟩ := hd
  obtain ⟨e, he⟩ := he
  refine ⟨_, _, _, _, d, e, by simp [es], hd, he, ?_⟩
  apply (genesis_agree_iff hr (by simp [DistinctNames, DistinctBelow, DistinctEntry, es,
    entryName]) hd he).mpr
  intro r contents hin hne
  have hin' : (r, contents) ∈ [([Component.normal "s", .normal "e"], ([] : List Char)),
    ([.normal "s", .normal "f"], ['a', 'b'])] := hin
  rcases List.mem_cons.mp hin' with heq | heq
  · rw [Prod.mk.injEq] at heq
    exact absurd heq.2 hne
  · obtain ⟨rfl, rfl⟩ := Prod.mk.injEq _ _ _ _ ▸ List.mem_singleton.mp heq
    decide

end GenesisOrder
