import Shario.FileSafety
import Shario.ShareQueue

/-! Routing: `find_file` reaches a loaded file exactly when no directory on the way to it
has a name that occurs further left in the path. -/
namespace PathRouting

open CrdtTypes FileTree FilePlacement FileSafety DirectoryTree ShareQueue

/-- The directory, all below it, and their files are where their paths say. -/
inductive Placed : SharDirectory → Prop where
  | mk {dirPath subDir subFiles} : (∀ dir ∈ subDir, Placed dir) →
      (∀ dir ∈ subDir, ∃ name, dir.dirName = dirPath ++ [.normal name]) →
      (∀ f ∈ subFiles, ∃ name, f.filePath = dirPath ++ [.normal name]) →
      (subDir.map SharDirectory.dirName).Nodup → (subFiles.map SharFile.filePath).Nodup →
      Placed (.mk dirPath subDir subFiles)

def entryName : FsEntry → Option String
  | .dir name _ => some name
  | .file name _ => some name
  | .special name => some name
  | .badEntry _ => none
  | .badType name _ => some name

mutual

/-- The names of one directory are distinct, as a file system has them. -/
def DistinctNames : Except String (List FsEntry) → Prop
  | .error _ => True
  | .ok entries => (entries.filterMap entryName).Nodup ∧ DistinctBelow entries

def DistinctBelow : List FsEntry → Prop
  | [] => True
  | entry :: entries => DistinctEntry entry ∧ DistinctBelow entries

def DistinctEntry : FsEntry → Prop
  | .dir _ read => DistinctNames read
  | _ => True

end

/-- What the loading loop has built when the names in `todo` are still to come. -/
structure PlacedListing (dirPath : PathBuf) (todo : List String) (listing : Listing) : Prop where
  placed : ∀ dir ∈ listing.1, Placed dir
  dirs : ∀ dir ∈ listing.1, ∃ name, dir.dirName = dirPath ++ [.normal name]
  files : ∀ f ∈ listing.2.1, ∃ name, f.filePath = dirPath ++ [.normal name]
  dirsDistinct : (listing.1.map SharDirectory.dirName).Nodup
  filesDistinct : (listing.2.1.map SharFile.filePath).Nodup
  newDir : ∀ name ∈ todo, dirPath ++ [.normal name] ∉ listing.1.map SharDirectory.dirName
  newFile : ∀ name ∈ todo, dirPath ++ [.normal name] ∉ listing.2.1.map SharFile.filePath

theorem new_path {filePath : PathBuf} {read : Except String (List Char)} {counter n : ℕ}
    {f : SharFile} (h : SharFile.new filePath read counter = some (.ok (f, n))) :
    f.filePath = filePath := by
  cases read with
  | error e => simp [SharFile.new] at h
  | ok contents =>
    refine (new_invariant (fun f _ => Sound f ∧ f.filePath = filePath) (fun _ _ h => h.1) ?_
      ⟨emptyFile_sound filePath, rfl⟩ h).2
    rintro f n ch prevId o g ⟨hf, hp⟩ ha
    exact ⟨sound_added hf ha, by rw [added_path ha, hp]⟩

section Listing

variable {dirPath : PathBuf} {name : String} {todo : List String} {subDir : List SharDirectory}
  {subFiles : List SharFile} {counter n : ℕ}

theorem placed_add_dir {dir : SharDirectory} (h : PlacedListing dirPath (name :: todo)
    (subDir, subFiles, counter)) (hn : (name :: todo).Nodup) (hd : Placed dir)
    (hname : dir.dirName = dirPath ++ [.normal name]) :
    PlacedListing dirPath todo (subDir ++ [dir], subFiles, n) := by
  have hnew := h.newDir name (by simp)
  refine ⟨fun d hd => ?_, fun d hd => ?_, h.files, ?_, h.filesDistinct, fun other ho => ?_,
    fun other ho => h.newFile other (by simp [ho])⟩
  · rcases List.mem_append.mp hd with hd | hd
    · exact h.placed d hd
    · rwa [List.mem_singleton.mp hd]
  · rcases List.mem_append.mp hd with hd | hd
    · exact h.dirs d hd
    · exact ⟨name, by rw [List.mem_singleton.mp hd, hname]⟩
  · rw [List.map_append, List.nodup_append']
    refine ⟨h.dirsDistinct, List.nodup_singleton _, ?_⟩
    simpa [hname] using hnew
  · have hne : other ≠ name := fun he => (List.nodup_cons.mp hn).1 (he ▸ ho)
    have := h.newDir other (by simp [ho])
    simp_all

theorem placed_add_file {f : SharFile} (h : PlacedListing dirPath (name :: todo)
    (subDir, subFiles, counter)) (hn : (name :: todo).Nodup)
    (hname : f.filePath = dirPath ++ [.normal name]) :
    PlacedListing dirPath todo (subDir, subFiles ++ [f], n) := by
  have hnew := h.newFile name (by simp)
  refine ⟨h.placed, h.dirs, fun g hg => ?_, h.dirsDistinct, ?_,
    fun other ho => h.newDir other (by simp [ho]), fun other ho => ?_⟩
  · rcases List.mem_append.mp hg with hg | hg
    · exact h.files g hg
    · exact ⟨name, by rw [List.mem_singleton.mp hg, hname]⟩
  · rw [List.map_append, List.nodup_append']
    refine ⟨h.filesDistinct, List.nodup_singleton _, ?_⟩
    simpa [hname] using hnew
  · have hne : other ≠ name := fun he => (List.nodup_cons.mp hn).1 (he ▸ ho)
    have := h.newFile other (by simp [ho])
    simp_all

theorem placed_weaken {listing : Listing} {todo' : List String} (h : PlacedListing dirPath todo listing)
    (hs : todo' ⊆ todo) : PlacedListing dirPath todo' listing :=
  ⟨h.placed, h.dirs, h.files, h.dirsDistinct, h.filesDistinct, fun n hn => h.newDir n (hs hn),
    fun n hn => h.newFile n (hs hn)⟩

end Listing

mutual

theorem new_placed : ∀ (read : Except String (List FsEntry)) (dirPath : PathBuf) (counter n : ℕ)
    (d : SharDirectory), DistinctNames read → SharDirectory.new read dirPath counter =
      some (.ok (d, n)) → Placed d ∧ d.dirName = dirPath
  | .error e, dirPath, counter, n, d, _, h => by simp [SharDirectory.new] at h
  | .ok entries, dirPath, counter, n, d, hd, h => by
    simp only [SharDirectory.new, Option.bind_eq_bind, Option.bind_eq_some_iff] at h
    obtain ⟨r, hr, h⟩ := h
    cases r with
    | error e => simp at h
    | ok listing =>
      simp only [Option.some.injEq, Except.ok.injEq, Prod.mk.injEq] at h
      obtain ⟨rfl, rfl⟩ := h
      have hl := loadEntries_placed entries dirPath _ listing [] (by simpa using hd.1) hd.2
        ⟨by simp, by simp, by simp, by simp, by simp, by simp, by simp⟩ hr
      exact ⟨.mk hl.placed hl.dirs hl.files hl.dirsDistinct hl.filesDistinct, rfl⟩

theorem loadEntries_placed : ∀ (entries : List FsEntry) (dirPath : PathBuf)
    (listing listing' : Listing) (todo : List String),
    (entries.filterMap entryName ++ todo).Nodup → DistinctBelow entries →
    PlacedListing dirPath (entries.filterMap entryName ++ todo) listing →
    loadEntries entries dirPath listing = some (.ok listing') → PlacedListing dirPath todo listing'
  | [], dirPath, listing, listing', todo, _, _, hl, h => by
    simp only [loadEntries, Option.some.injEq, Except.ok.injEq] at h
    exact h ▸ hl
  | entry :: entries, dirPath, listing, listing', todo, hn, hd, hl, h => by
    simp only [loadEntries, Option.bind_eq_bind, Option.bind_eq_some_iff] at h
    obtain ⟨r, hr, h⟩ := h
    cases r with
    | error e => simp at h
    | ok next =>
      have hcat : (entry :: entries).filterMap entryName ++ todo =
          (entryName entry).toList ++ (entries.filterMap entryName ++ todo) := by
        cases he : entryName entry <;> simp [he]
      rw [hcat] at hn hl
      exact loadEntries_placed entries dirPath next listing' todo
        (List.nodup_append'.mp hn).2.1 hd.2
        (loadEntry_placed entry dirPath listing next _ hn hd.1 hl hr) h

theorem loadEntry_placed : ∀ (entry : FsEntry) (dirPath : PathBuf) (listing listing' : Listing)
    (todo : List String), ((entryName entry).toList ++ todo).Nodup → DistinctEntry entry →
    PlacedListing dirPath ((entryName entry).toList ++ todo) listing →
    loadEntry entry dirPath listing = some (.ok listing') → PlacedListing dirPath todo listing'
  | .dir name read, dirPath, (subDir, subFiles, counter), listing', todo, hn, hd, hl, h => by
    simp only [loadEntry, Option.bind_eq_bind, Option.bind_eq_some_iff] at h
    obtain ⟨r, hr, h⟩ := h
    cases r with
    | error e => simp at h
    | ok dn =>
      obtain ⟨dir, n⟩ := dn
      simp only [Option.some.injEq, Except.ok.injEq] at h
      obtain ⟨hp, hname⟩ := new_placed read _ _ _ _ hd hr
      exact h ▸ placed_add_dir hl hn hp hname
  | .file name read, dirPath, (subDir, subFiles, counter), listing', todo, hn, _, hl, h => by
    simp only [loadEntry, Option.bind_eq_bind, Option.bind_eq_some_iff] at h
    obtain ⟨r, hr, h⟩ := h
    cases r with
    | error e => simp at h
    | ok fn =>
      obtain ⟨f, n⟩ := fn
      simp only [Option.some.injEq, Except.ok.injEq] at h
      exact h ▸ placed_add_file hl hn (new_path hr)
  | .special name, dirPath, listing, listing', todo, _, _, hl, h => by
    simp only [loadEntry, Option.some.injEq, Except.ok.injEq] at h
    exact h ▸ placed_weaken hl (List.subset_append_right _ _)
  | .badEntry e, dirPath, listing, listing', todo, _, _, _, h => by simp [loadEntry] at h
  | .badType name e, dirPath, listing, listing', todo, _, _, _, h => by simp [loadEntry] at h

end

/-- From position `k - 1` on, the components but the last one do not occur before. -/
def FirstNames (k : ℕ) (path : PathBuf) : Prop :=
  ∀ i c, k ≤ i + 1 → i + 1 < path.length → path[i]? = some c → c ∉ path.take i

theorem endsWith_iff {path : PathBuf} {c : Component} :
    endsWith path c = true ↔ ∃ up, path = up ++ [c] := by
  rw [endsWith, beq_iff_eq, List.getLast?_eq_some_iff]

theorem fileName_eq_some {path : PathBuf} {c : Component} (h : fileName path = some c) :
    ∃ up name, path = up ++ [c] ∧ c = .normal name := by
  unfold fileName at h
  split at h
  · rename_i name hl
    obtain ⟨up, rfl⟩ := List.getLast?_eq_some_iff.mp hl
    rw [Option.some.injEq] at h
    exact ⟨up, name, by rw [h], h.symm⟩
  · simp at h

@[simp] theorem fileName_append (up : PathBuf) (name : String) :
    fileName (up ++ [.normal name]) = some (.normal name) := by
  simp [fileName]

theorem findIdx_name {β : Type} {path : β → PathBuf} {dirPath : PathBuf} {name : String}
    {l : List β} {j : ℕ} {b : β} (hj : l[j]? = some b) (hb : path b = dirPath ++ [.normal name])
    (hall : ∀ b ∈ l, ∃ n, path b = dirPath ++ [.normal n]) (hnd : (l.map path).Nodup) :
    ∀ i b', l[i]? = some b' → endsWith (path b') (.normal name) = true → i = j := by
  intro i b' hi hend
  obtain ⟨n, hn⟩ := hall b' (List.mem_of_getElem? hi)
  obtain ⟨up, hup⟩ := endsWith_iff.mp hend
  rw [hn] at hup
  obtain ⟨_, hname⟩ := List.append_inj' hup rfl
  simp only [List.cons.injEq, and_true] at hname
  have hi' : (l.map path)[i]? = some (dirPath ++ [.normal name]) := by simp [hi, hn, hname]
  have hj' : (l.map path)[j]? = some (dirPath ++ [.normal name]) := by simp [hj, hb]
  have hlt : i < (l.map path).length := (List.getElem?_eq_some_iff.mp hi').1
  exact (List.getElem?_inj hlt hnd).mp (hi'.trans hj'.symm)

theorem findDir_at {path : PathBuf} {next : Component} : ∀ {dirs : List SharDirectory} {i k : ℕ}
    {dir : SharDirectory}, dirs[i]? = some dir → endsWith dir.dirName next = true →
    (∀ n d, dirs[n]? = some d → endsWith d.dirName next = true → n = i) →
    SharDirectory.findDir dirs k next path =
      (dir.findFile path).map fun ref => ((k + i) :: ref.1, ref.2) := by
  intro dirs
  induction dirs with
  | nil => intro i k dir h; simp at h
  | cons d dirs ih =>
    intro i k dir hi hend huniq
    rw [SharDirectory.findDir]
    cases i with
    | zero =>
      simp only [List.getElem?_cons_zero, Option.some.injEq] at hi
      subst hi
      rw [if_pos hend, Nat.add_zero]
    | succ i =>
      have hd : ¬ endsWith d.dirName next = true := fun h => by
        have := huniq 0 d rfl h
        omega
      rw [if_neg hd, ih hi hend fun n d hn h => by
        have := huniq (n + 1) d hn h
        omega]
      congr 1
      funext ref
      congr 2
      omega

theorem dropWhile_name {pre rest : PathBuf} {c : Component} (h : c ∉ pre) :
    (pre ++ c :: rest).dropWhile (· != c) = c :: rest := by
  induction pre with
  | nil => simp
  | cons a pre ih =>
    have ha : a ≠ c := fun he => h (by simp [he])
    rw [List.cons_append, List.dropWhile_cons_of_pos (by simpa using ha)]
    exact ih fun hin => h (by simp [hin])

theorem firstNames_step {up rest : PathBuf} {c : Component} (h : rest ≠ []) :
    FirstNames (up.length + 1) (up ++ c :: rest) ↔
      c ∉ up ∧ FirstNames (up.length + 2) (up ++ c :: rest) := by
  have hlen : (up ++ c :: rest).length = up.length + 1 + rest.length := by simp; omega
  have hpos : 0 < rest.length := List.length_pos_iff.mpr h
  constructor
  · refine fun hf => ⟨?_, fun i d hk => hf i d (by omega)⟩
    have := hf up.length c le_rfl (by omega) (by simp)
    simpa using this
  · rintro ⟨hc, hf⟩ i d hk hlt hd
    by_cases hi : i = up.length
    · subst hi
      simp only [RowLayout.getElem?_middle, Option.some.injEq] at hd
      subst hd
      simpa using hc
    · exact hf i d (by omega) hlt hd

theorem findFile_ref : ∀ {is : List ℕ} {j : ℕ} {d : SharDirectory} {f : SharFile} {up : PathBuf}
    {this : String}, Placed d → d.dirName = up ++ [.normal this] → d.fileAt is j = some f →
    (∃ rest, rest ≠ [] ∧ (∀ c ∈ rest, ∃ name, c = .normal name) ∧
      f.filePath = up ++ .normal this :: rest) ∧
    (d.findFile f.filePath = some (is, j) ↔ FirstNames (up.length + 1) f.filePath) := by
  intro is
  induction is with
  | nil =>
    rintro j d f up this hp hname hf
    obtain ⟨hsub, hdirs, hfiles, hnd, hfd⟩ := hp
    rename_i dirPath subDir subFiles
    have hdp : dirPath = up ++ [.normal this] := hname
    subst hdp
    have hj : subFiles[j]? = some f := hf
    obtain ⟨name, hpath⟩ := hfiles f (List.mem_of_getElem? hj)
    have hcut : f.filePath = up ++ .normal this :: [.normal name] := by simp [hpath]
    refine ⟨⟨_, by simp, by simp, hcut⟩, ?_⟩
    rw [hcut, firstNames_step (by simp)]
    have hlast : FirstNames (up.length + 2) (up ++ .normal this :: [.normal name]) := by
      intro i c hk hlt
      simp at hlt
      omega
    constructor
    · intro h
      refine ⟨fun hin => ?_, hlast⟩
      obtain ⟨this', pre, next, rest, hn, hsplit, hpre, ⟨rfl, _, _⟩ | ⟨_, hd⟩⟩ :=
        SharDirectory.findFile_cases h
      · rw [fileName_append, Option.some.injEq] at hn
        subst hn
        have hlen := congrArg List.length hsplit
        have hsame : up = pre := by
          apply List.append_inj_left hsplit
          simp at hlen
          omega
        exact hpre (hsame ▸ hin)
      · obtain ⟨k, dir, is, _, _, _, hk⟩ := SharDirectory.findDir_some hd
        simp at hk
    · rintro ⟨hup, _⟩
      have hne : subFiles ≠ [] := by
        rintro rfl
        simp at hj
      have hidx : subFiles.findIdx? (endsWith ·.filePath (.normal name)) = some j := by
        have hend : endsWith f.filePath (.normal name) = true :=
          endsWith_iff.mpr ⟨_, hpath⟩
        cases hfind : subFiles.findIdx? (endsWith ·.filePath (.normal name)) with
        | none =>
          have := List.findIdx?_eq_none_iff.mp hfind f (List.mem_of_getElem? hj)
          rw [hend] at this
          exact absurd this (by simp)
        | some k =>
          obtain ⟨hlt, hk, _⟩ := List.findIdx?_eq_some_iff_getElem.mp hfind
          rw [findIdx_name hj hpath hfiles hfd k _ (List.getElem?_eq_getElem hlt) hk]
      simp [SharDirectory.findFile, dropWhile_name hup, hne, hidx]
  | cons i is ih =>
    rintro j d f up this hp hname hf
    obtain ⟨hsub, hdirs, hfiles, hnd, hfd⟩ := hp
    rename_i dirPath subDir subFiles
    have hdp : dirPath = up ++ [.normal this] := hname
    subst hdp
    simp only [SharDirectory.fileAt, Option.bind_eq_some_iff] at hf
    obtain ⟨dir, hdir, hf⟩ := hf
    have hin := List.mem_of_getElem? hdir
    obtain ⟨name, hdn⟩ := hdirs dir hin
    obtain ⟨⟨rest, hrest, hnormal, hpath⟩, hiff⟩ := ih (hsub dir hin) hdn hf
    have hcut : f.filePath = up ++ .normal this :: .normal name :: rest := by simp [hpath]
    rw [List.length_append, List.length_singleton] at hiff
    refine ⟨⟨_, by simp, by simpa using hnormal, hcut⟩, ?_⟩
    have huniq := findIdx_name hdir hdn hdirs hnd
    rw [hcut, firstNames_step (by simp), ← hcut, ← hiff]
    constructor
    · intro h
      obtain ⟨this', pre, next, rest', hn, hsplit, hpre, ⟨_, hnil, _⟩ | ⟨_, hd⟩⟩ :=
        SharDirectory.findFile_cases h
      · simp at hnil
      rw [fileName_append, Option.some.injEq] at hn
      subst hn
      obtain ⟨k, dir', is', hk, hend, hfound, he⟩ := SharDirectory.findDir_some hd
      simp only [Nat.zero_add, List.cons.injEq] at he
      obtain ⟨rfl, rfl⟩ := he
      rw [hdir, Option.some.injEq] at hk
      subst hk
      refine ⟨fun hup => ?_, hfound⟩
      -- an earlier occurrence would put the next name before its own place, too
      have hnext : next = .normal name := by
        obtain ⟨u, hu⟩ := endsWith_iff.mp hend
        rw [hdn] at hu
        have := (List.append_inj' hu rfl).2
        simpa using this.symm
      have hlt : pre.length < up.length := by
        by_contra hge
        have htake : up ++ [.normal this] <+: pre ++ [.normal this] := by
          have hpath' : up ++ [.normal this] <+: f.filePath := ⟨.normal name :: rest, by simp [hcut]⟩
          have hsplit' : pre ++ [.normal this] <+: f.filePath := ⟨next :: rest', by simp [hsplit]⟩
          exact List.prefix_of_prefix_length_le hpath' hsplit' (by simp; omega)
        rcases List.prefix_concat_iff.mp htake with he | hpr
        · obtain ⟨rfl, _⟩ := List.append_inj' he rfl
          exact hpre hup
        · exact hpre (hpr.subset (by simp [hup]))
      have hfirst := hiff.mp hfound (up.length + 1) (.normal name) (by omega)
        (by have := List.length_pos_iff.mpr hrest; rw [hcut]; simp; omega) (by
          rw [hcut]
          simp)
      refine hfirst (List.mem_iff_getElem?.mpr ⟨pre.length + 1, ?_⟩)
      rw [List.getElem?_take_of_lt (by omega), hsplit, hnext]
      simp
    · rintro ⟨hup, hfound⟩
      have hne : subDir ≠ [] := by
        rintro rfl
        simp at hdir
      have hend : endsWith dir.dirName (.normal name) = true := endsWith_iff.mpr ⟨_, hdn⟩
      obtain ⟨r, rs, rfl⟩ := List.exists_cons_of_ne_nil hrest
      have hstep : SharDirectory.findDir subDir 0 (.normal name) f.filePath = _ :=
        findDir_at hdir hend huniq
      rw [hfound] at hstep
      rw [hcut] at hstep ⊢
      simp [SharDirectory.findFile, dropWhile_name hup, hne, hstep]

theorem placed_unique : ∀ {is is' : List ℕ} {j j' : ℕ} {d : SharDirectory} {f g : SharFile},
    Placed d → d.fileAt is j = some f → d.fileAt is' j' = some g → f.filePath = g.filePath →
    is = is' ∧ j = j' := by
  have hindex : ∀ {β : Type} {path : β → PathBuf} {l : List β} {i k : ℕ} {a b : β},
      (l.map path).Nodup → l[i]? = some a → l[k]? = some b → path a = path b → i = k := by
    intro β path l i k a b hnd hi hk he
    have hi' : (l.map path)[i]? = some (path a) := by simp [hi]
    have hk' : (l.map path)[k]? = some (path a) := by simp [hk, he]
    exact (List.getElem?_inj (List.getElem?_eq_some_iff.mp hi').1 hnd).mp (hi'.trans hk'.symm)
  -- a file below a subdirectory has a longer path than a file next to it
  have hbelow : ∀ {is : List ℕ} {j : ℕ} {dir : SharDirectory} {f : SharFile} {dirPath : PathBuf}
      {name : String}, Placed dir → dir.dirName = dirPath ++ [.normal name] →
      dir.fileAt is j = some f → ∃ rest, rest ≠ [] ∧ f.filePath = dirPath ++ .normal name :: rest :=
    fun hp hn hf => by
      obtain ⟨⟨rest, hne, _, he⟩, _⟩ := findFile_ref hp hn hf
      exact ⟨rest, hne, he⟩
  intro is
  induction is with
  | nil =>
    rintro is' j j' d f g hp hf hg he
    obtain ⟨hsub, hdirs, hfiles, hnd, hfd⟩ := hp
    rename_i dirPath subDir subFiles
    have hf' : subFiles[j]? = some f := hf
    cases is' with
    | nil => exact ⟨rfl, hindex hfd hf' hg he⟩
    | cons i' is' =>
      simp only [SharDirectory.fileAt, Option.bind_eq_some_iff] at hg
      obtain ⟨dir, hdir, hg⟩ := hg
      have hin := List.mem_of_getElem? hdir
      obtain ⟨name, hn⟩ := hfiles f (List.mem_of_getElem? hf')
      obtain ⟨dname, hdn⟩ := hdirs dir hin
      obtain ⟨rest, hne, hpath⟩ := hbelow (hsub dir hin) hdn hg
      rw [hn, hpath, List.append_cancel_left_eq, List.cons.injEq] at he
      exact absurd he.2.symm hne
  | cons i is ih =>
    rintro is' j j' d f g hp hf hg he
    obtain ⟨hsub, hdirs, hfiles, hnd, hfd⟩ := hp
    rename_i dirPath subDir subFiles
    simp only [SharDirectory.fileAt, Option.bind_eq_some_iff] at hf
    obtain ⟨dir, hdir, hf⟩ := hf
    have hin := List.mem_of_getElem? hdir
    obtain ⟨dname, hdn⟩ := hdirs dir hin
    obtain ⟨rest, hne, hpath⟩ := hbelow (hsub dir hin) hdn hf
    cases is' with
    | nil =>
      have hg' : subFiles[j']? = some g := hg
      obtain ⟨name, hn⟩ := hfiles g (List.mem_of_getElem? hg')
      rw [hn, hpath, List.append_cancel_left_eq, List.cons.injEq] at he
      exact absurd he.2 hne
    | cons i' is' =>
      simp only [SharDirectory.fileAt, Option.bind_eq_some_iff] at hg
      obtain ⟨dir', hdir', hg⟩ := hg
      have hin' := List.mem_of_getElem? hdir'
      obtain ⟨dname', hdn'⟩ := hdirs dir' hin'
      obtain ⟨rest', _, hpath'⟩ := hbelow (hsub dir' hin') hdn' hg
      have hname : dir.dirName = dir'.dirName := by
        have hsplit := he
        rw [hpath, hpath', List.append_cancel_left_eq, List.cons.injEq] at hsplit
        rw [hdn, hdn', hsplit.1]
      obtain rfl : i = i' := hindex hnd hdir hdir' hname
      rw [hdir, Option.some.injEq] at hdir'
      subst hdir'
      obtain ⟨rfl, rfl⟩ := ih (hsub dir hin) hf hg he
      exact ⟨rfl, rfl⟩

theorem joinPath_absolute {base path : PathBuf} (h : isAbsolute path = true) :
    joinPath base path = path := by
  simp [joinPath, h]

theorem joinPath_normal {base rest : PathBuf} (h : ∀ c ∈ rest, ∃ name, c = .normal name)
    (hb : base ≠ []) : joinPath base rest = base ++ rest := by
  have habs : isAbsolute rest = false := by
    cases rest with
    | nil => rfl
    | cons c rest =>
      obtain ⟨name, rfl⟩ := h c (by simp)
      rfl
  have hfilter : rest.filter (· ≠ .curDir) = rest := by
    refine List.filter_eq_self.mpr fun c hc => ?_
    obtain ⟨name, rfl⟩ := h c hc
    rfl
  rw [joinPath, habs, hfilter, if_neg (by simpa using hb)]

theorem new_tree {dirPath : PathBuf} {read : Except String (List FsEntry)} {peer : ℕ}
    {q : SharQueue} (h : SharQueue.new dirPath read peer = some (.ok q)) :
    SharDirectory.new read dirPath 0 = some (.ok (q.tree, q.counter)) ∧ q.peer = peer ∧
      q = ⟨∅, ∅, ∅, [], [], ∅, peer, q.tree, q.counter, []⟩ := by
  simp only [SharQueue.new, Option.bind_eq_bind, Option.bind_eq_some_iff] at h
  obtain ⟨r, hr, h⟩ := h
  cases r with
  | error e => simp at h
  | ok tn =>
    simp only [Option.some.injEq, Except.ok.injEq] at h
    subst h
    exact ⟨hr, rfl, rfl⟩

/-- A replica loaded from an absolute path that has a file name. -/
structure Replica (dirPath : PathBuf) (q : SharQueue) : Prop where
  absolute : isAbsolute dirPath = true
  named : (fileName dirPath).isSome = true
  loaded : ∃ read peer, DistinctNames read ∧ SharQueue.new dirPath read peer = some (.ok q)

/-- `ref` is the file at the relative path `r`. -/
def HoldsAt (dirPath : PathBuf) (q : SharQueue) (r : PathBuf) (ref : FileRef) : Prop :=
  ∃ f, q.tree.getFile ref = some f ∧ f.filePath = dirPath ++ r

theorem replica_route {dirPath r : PathBuf} {q : SharQueue} {ref : FileRef}
    (hq : Replica dirPath q) (hr : HoldsAt dirPath q r ref) :
    q.root = dirPath ∧ (∀ c ∈ r, ∃ name, c = .normal name) ∧
      (q.tree.findFile (dirPath ++ r) = some ref ↔ FirstNames dirPath.length (dirPath ++ r)) := by
  obtain ⟨read, peer, hd, hnew⟩ := hq.loaded
  obtain ⟨this, hthis⟩ := Option.isSome_iff_exists.mp hq.named
  obtain ⟨up, name, hup, rfl⟩ := fileName_eq_some hthis
  obtain ⟨hplaced, hname⟩ := new_placed _ _ _ _ _ hd (new_tree hnew).1
  obtain ⟨f, hf, hpath⟩ := hr
  obtain ⟨⟨rest, _, hnormal, hcut⟩, hiff⟩ := findFile_ref hplaced (hname.trans hup) hf
  have hrest : r = rest := by
    rw [hpath, hup, List.append_assoc, List.append_cancel_left_eq] at hcut
    exact (List.cons.inj hcut).2
  refine ⟨hname, hrest ▸ hnormal, ?_⟩
  rw [← hpath, hup, List.length_append, List.length_singleton]
  exact hiff

/-- Every file of a replica lies below its root, at a path of its own. -/
theorem replica_file {dirPath : PathBuf} {q : SharQueue} {ref : FileRef} {f : SharFile}
    (hq : Replica dirPath q) (hf : q.tree.getFile ref = some f) :
    ∃ r, f.filePath = dirPath ++ r ∧ ∀ c ∈ r, ∃ name, c = .normal name := by
  obtain ⟨read, peer, hd, hnew⟩ := hq.loaded
  obtain ⟨this, hthis⟩ := Option.isSome_iff_exists.mp hq.named
  obtain ⟨up, name, hup, rfl⟩ := fileName_eq_some hthis
  obtain ⟨hplaced, hname⟩ := new_placed _ _ _ _ _ hd (new_tree hnew).1
  obtain ⟨⟨rest, _, hnormal, hcut⟩, _⟩ := findFile_ref hplaced (hname.trans hup) hf
  exact ⟨rest, by rw [hcut, hup]; simp, hnormal⟩

theorem replica_unique {dirPath : PathBuf} {q : SharQueue} {ref ref' : FileRef} {f g : SharFile}
    (hq : Replica dirPath q) (hf : q.tree.getFile ref = some f) (hg : q.tree.getFile ref' = some g)
    (he : f.filePath = g.filePath) : ref = ref' := by
  obtain ⟨read, peer, hd, hnew⟩ := hq.loaded
  obtain ⟨hplaced, _⟩ := new_placed _ _ _ _ _ hd (new_tree hnew).1
  obtain ⟨h₁, h₂⟩ := placed_unique hplaced hf hg he
  exact Prod.ext h₁ h₂

/-- The file at `r` is reached, also from another replica and on a retry, exactly when no
directory name on its path repeats an earlier component. -/
theorem route_iff {dirPath dirPath' r : PathBuf} {q q' : SharQueue} {ref ref' : FileRef}
    (hq : Replica dirPath q) (hq' : Replica dirPath' q') (hr : HoldsAt dirPath q r ref)
    (hr' : HoldsAt dirPath' q' r ref') :
    (q.tree.findFile (dirPath ++ r) = some ref ↔ FirstNames dirPath.length (dirPath ++ r)) ∧
    ((q.tree.findFile (q.toLocalPath (q'.toRelativePath (dirPath' ++ r))) = some ref ∧
      q.tree.findFile (q.toLocalPath (q.toLocalPath (q'.toRelativePath (dirPath' ++ r)))) =
        some ref) ↔ FirstNames dirPath.length (dirPath ++ r)) := by
  obtain ⟨hroot, hnormal, hiff⟩ := replica_route hq hr
  obtain ⟨hroot', _, _⟩ := replica_route hq' hr'
  have hne : dirPath ≠ [] := by
    rintro rfl
    exact absurd hq.absolute (by simp [isAbsolute])
  have hrel : q'.toRelativePath (dirPath' ++ r) = r := by
    simp [SharQueue.toRelativePath, stripPrefix, hroot']
  have hlocal : q.toLocalPath r = dirPath ++ r := by
    rw [SharQueue.toLocalPath, hroot, joinPath_normal hnormal hne]
  have habs : isAbsolute (dirPath ++ r) = true := by
    have := hq.absolute
    cases dirPath with
    | nil => exact absurd rfl hne
    | cons c dirPath => cases c <;> simp_all [isAbsolute]
  rw [hrel, hlocal, SharQueue.toLocalPath, joinPath_absolute habs, hiff]
  simp

/-- One file in a directory that is cloned into `/home/ann` and into `/srv`. -/
theorem route_iff_note : ∃ q q' : SharQueue,
    Replica [.rootDir, .normal "home", .normal "ann", .normal "doc"] q ∧
    Replica [.rootDir, .normal "srv", .normal "doc"] q' ∧
    q.tree.findFile (q.toLocalPath (q'.toRelativePath
      [.rootDir, .normal "srv", .normal "doc", .normal "note"])) = some ([], 0) := by
  have hd : DistinctNames (.ok [.file "note" (.ok ['x'])]) := ⟨by decide, trivial, trivial⟩
  have hq : ∃ q, Replica [.rootDir, .normal "home", .normal "ann", .normal "doc"] q ∧
      HoldsAt [.rootDir, .normal "home", .normal "ann", .normal "doc"] q [.normal "note"] ([], 0) :=
    ⟨_, ⟨rfl, rfl, _, 1, hd, rfl⟩, _, rfl, rfl⟩
  have hq' : ∃ q, Replica [.rootDir, .normal "srv", .normal "doc"] q ∧
      HoldsAt [.rootDir, .normal "srv", .normal "doc"] q [.normal "note"] ([], 0) :=
    ⟨_, ⟨rfl, rfl, _, 2, hd, rfl⟩, _, rfl, rfl⟩
  obtain ⟨q, hq, hr⟩ := hq
  obtain ⟨q', hq', hr'⟩ := hq'
  refine ⟨q, q', hq, hq', ((route_iff hq hq' hr hr').2.mpr ?_).1⟩
  intro i c hk hlt hc
  obtain rfl : i = 3 := by
    simp at hk hlt
    omega
  obtain rfl : c = .normal "doc" := (Option.some.inj hc).symm
  decide

/-- `/a/a` holds the file `f`; the search stops at the first `a`. -/
theorem repeated_name_lost : ¬ ∀ (dirPath r : PathBuf) (q : SharQueue) (ref : FileRef),
    Replica dirPath q → HoldsAt dirPath q r ref → q.tree.findFile (dirPath ++ r) = some ref := by
  intro h
  have hd : DistinctNames (.ok [.file "f" (.ok [])]) := ⟨by decide, trivial, trivial⟩
  have hfound := h [.rootDir, .normal "a", .normal "a"] [.normal "f"] _ ([], 0)
    ⟨rfl, rfl, _, 1, hd, rfl⟩ ⟨_, rfl, rfl⟩
  exact absurd hfound (by decide)

end PathRouting
