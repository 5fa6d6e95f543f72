import Shario.DeliveryRuns
import Shario.QueueRuns

/-! The character map of a file under every call of the queue: a tree that only grows, in
which every climb ends. -/
namespace GrowOnlyTree

open CrdtTypes FileTree TreeOrder CharacterTree FilePlacement FileSafety DirectoryTree ShareQueue
  WorklistDrain TreeCalls QueueSteps IdeSteps QueueRuns

/-- The root is there and live, every chain of parents is a path to it, and `find_tombstone`
comes to an end from every tombstone. -/
structure TreeShaped (f : SharFile) : Prop where
  root_entry : f.characters.lookup root = some rootRelation
  climbs : ∀ x ∈ f.characters, ∃ p, PathTo (parentOf f.characters) root x p ∧ (root :: p).Nodup
  ends : ∀ lineNum x, Tomb f.characters x → ∃ r, ∀ fuel, f.characters.keys.card ≤ fuel →
    findTombstone f lineNum fuel x = some r

/-- `g` has every entry of `f`, under its value and parent, and the deleted ones deleted. -/
structure Grows (f g : SharFile) : Prop where
  path : g.filePath = f.filePath
  kept : ∀ x rel, f.characters.lookup x = some rel → ∃ rel', g.characters.lookup x = some rel' ∧
    rel'.value = rel.value ∧ rel'.parent = rel.parent ∧ (rel.deleted = true → rel'.deleted = true)

def GrownTo (t u : SharDirectory) : Prop :=
  ∀ ref f, t.getFile ref = some f → ∃ g, u.getFile ref = some g ∧ Grows f g

/-- The queues in which a call tries its operation and those that it wakes. -/
inductive TriedDuring (q : SharQueue) : QueueCall → SharQueue → Prop where
  | network {item p i} : RetriedIn q item p i → TriedDuring q (.network item) p
  | ideAdd {op p i} : TriedIn q op p i → TriedDuring q (.ideAdd op) p
  | ideRemove {op} : TriedDuring q (.ideRemove op) q

section File

variable {f g k : SharFile} {c : CRDT} {x : Identity} {o : Outcome}

theorem tombstone_fuel (lineNum : ℕ) {n : ℕ} {r : Except Error Position}
    (h : findTombstone f lineNum n x = some r) : findTombstone f lineNum (n + 1) x = some r := by
  induction n generalizing x r with
  | zero => simp [findTombstone] at h
  | succ n ih =>
    rw [findTombstone] at h ⊢
    cases hx : f.characters.lookup x with
    | none => simpa only [hx] using h
    | some relation =>
      cases hp : f.characters.lookup relation.parent with
      | none => simpa only [hx, hp] using h
      | some parent =>
        simp only [hx, hp] at h ⊢
        by_cases hd : parent.deleted = true
        · simp only [hd, if_true, Option.bind_eq_bind, Option.bind_eq_some_iff] at h ⊢
          obtain ⟨above, habove, h⟩ := h
          exact ⟨above, ih habove, h⟩
        · rw [if_neg hd] at h ⊢
          exact h

theorem tombstone_ends (hf : Sound f) (hx : Tomb f.characters x) (lineNum : ℕ) :
    ∃ r, ∀ fuel, f.characters.keys.card ≤ fuel → findTombstone f lineNum fuel x = some r := by
  obtain ⟨p, hp⟩ := hf.rooted.climbs x hx.mem
  have hfirst : ∃ r, findTombstone f lineNum f.characters.keys.card x = some r := by
    rcases find_tombstone_spec hf lineNum hp (hf.rooted.tomb_ne_root hx) _
      (hf.rooted.path_length hp).le with ⟨A, pre, _, _, _, he⟩ | ⟨_, _, e, _, _, _, he⟩
    · exact ⟨_, he⟩
    · exact ⟨_, he⟩
  obtain ⟨r, hr⟩ := hfirst
  refine ⟨r, fun fuel hle => ?_⟩
  induction fuel, hle using Nat.le_induction with
  | base => exact hr
  | succ fuel _ ih => exact tombstone_fuel lineNum ih

theorem sound_tree (hf : Sound f) : TreeShaped f where
  root_entry := hf.rooted.root_entry
  climbs := by
    intro x hx
    obtain ⟨p, hp⟩ := hf.rooted.climbs x hx
    exact ⟨p, hp, List.nodup_cons.mpr ⟨root_not_mem_path (parentOf_root _) hp,
      path_nodup (parentOf_root _) hp⟩⟩
  ends := fun lineNum _ hx => tombstone_ends hf hx lineNum

theorem grows_refl (f : SharFile) : Grows f f :=
  ⟨rfl, fun _ rel h => ⟨rel, h, rfl, rfl, id⟩⟩

theorem Grows.trans (h : Grows f g) (h' : Grows g k) : Grows f k where
  path := h'.path.trans h.path
  kept := by
    intro x rel hx
    obtain ⟨rel', hx', hv, hp, hd⟩ := h.kept x rel hx
    obtain ⟨rel'', hx'', hv', hp', hd'⟩ := h'.kept x rel' hx'
    exact ⟨rel'', hx'', hv'.trans hv, hp'.trans hp, fun hdel => hd' (hd hdel)⟩

theorem grows_added (h : Added f c o g) : Grows f g := by
  refine ⟨added_path h, fun x rel hx => ?_⟩
  rcases added_characters h with he | ⟨hc, he⟩
  · exact ⟨rel, by rw [he, hx], rfl, rfl, id⟩
  · have hne : x ≠ c.identity := by
      rintro rfl
      exact hc (Finmap.mem_iff.mpr ⟨rel, hx⟩)
    exact ⟨rel, by rw [he, Finmap.lookup_insert_of_ne _ hne, hx], rfl, rfl, id⟩

theorem grows_removed (h : Removed f x o g) : Grows f g := by
  refine ⟨removed_path h, fun y rel hy => ?_⟩
  rcases removed_characters h with he | ⟨rel', hl, he⟩
  · exact ⟨rel, by rw [he, hy], rfl, rfl, id⟩
  · by_cases hyx : y = x
    · subst hyx
      rw [hl, Option.some.injEq] at hy
      subst hy
      exact ⟨{ rel' with deleted := true }, by rw [he, mark, Finmap.lookup_insert], rfl, rfl,
        fun _ => rfl⟩
    · exact ⟨rel, by rw [he, mark, Finmap.lookup_insert_of_ne _ hyx, hy], rfl, rfl, id⟩

end File

section Tree

variable {t₀ t u : SharDirectory} {path : PathBuf} {c : CRDT} {x : Identity} {o : Outcome}

theorem grown_set {ref : FileRef} {f g : SharFile} (h : GrownTo t₀ t) (hf : t.getFile ref = some f)
    (hg : Grows f g) : GrownTo t₀ (t.setFile ref g) := by
  intro r f₀ hf₀
  obtain ⟨f', hf', hgrow⟩ := h r f₀ hf₀
  by_cases hr : r = ref
  · subst hr
    rw [hf, Option.some.injEq] at hf'
    subst hf'
    exact ⟨g, SharDirectory.getFile_setFile_self hf, hgrow.trans hg⟩
  · exact ⟨f', by rw [SharDirectory.getFile_setFile_ne hr, hf'], hgrow⟩

def Kept (t₀ t : SharDirectory) : Prop := AllFiles Sound t ∧ GrownTo t₀ t

theorem kept_refl (h : AllFiles Sound t) : Kept t t :=
  ⟨h, fun _ f hf => ⟨f, hf, grows_refl f⟩⟩

theorem kept_added (h : Kept t₀ t) (ha : TreeAdded t path c o u) : Kept t₀ u := by
  refine ⟨ha.sound h.1, ?_⟩
  cases ha with
  | lost _ => exact h.2
  | routed _ hf ha => exact grown_set h.2 hf (grows_added ha)

theorem kept_removed (h : Kept t₀ t) (hx : x ≠ root) (hr : TreeRemoved t path x o u) :
    Kept t₀ u := by
  refine ⟨hr.sound hx h.1, ?_⟩
  cases hr with
  | lost _ => exact h.2
  | routed _ hf hr => exact grown_set h.2 hf (grows_removed hr)

theorem kept_trees (h : Kept t₀ t) : AllFiles TreeShaped t :=
  fun ref f hf => sound_tree (h.1 ref f hf)

end Tree

section During

variable {P : SharDirectory → Prop} (hsound : ∀ t, P t → AllFiles Sound t)
  (hadd : ∀ t path c o u, P t → TreeAdded t path c o u → P u)
  (hremove : ∀ t path x o u, P t → x ≠ root → TreeRemoved t path x o u → P u)

include hsound hadd

theorem ide_draining_keeps {p p' : SharQueue} (hP : P p.tree) (h : IdeDraining p p') :
    P p'.tree := by
  refine h.invariant (J := fun p => P p.tree) (fun s i s₁ s₂ hs hpop he => ?_) hP
  obtain ⟨rest, _, rfl⟩ := popIde_eq hpop
  rcases retryIde_cases (q := { s with ideWorklist := rest }) (hsound _ hs) i with
    ⟨s', he', hr⟩ | ⟨he', _⟩
  · rw [he, Option.some.injEq] at he'
    exact he' ▸ retriedIde_keeps hadd (q := { s with ideWorklist := rest }) hs hr
  · rw [he] at he'
    exact absurd he' (by simp)

theorem ide_tried_keeps {q p : SharQueue} {op i : IdeAdd} (hP : P q.tree) (h : TriedIn q op p i) :
    P p.tree := by
  have hstart : ∀ n, P (enlisted q op n).tree := by
    intro n
    rw [enlisted_tree]
    exact hP
  have hpop : ∀ {p p' : SharQueue}, P p'.tree → p'.popIde = some (i, p) → P p.tree := by
    intro p p' hp hpop
    obtain ⟨rest, _, rfl⟩ := popIde_eq hpop
    exact hp
  have hopen : ∀ {n x parent pos t}, Lands (enlisted q op n) op x parent pos t →
      P ((withTree (enlisted q op n) t).queueIdeBacklog x).tree := by
    intro n x parent pos t hl
    rw [queueIde_tree]
    exact hadd _ _ _ _ _ (hstart n) hl.added
  cases h with
  | own _ => exact hstart _
  | woken _ hl hd hp => exact hpop (ide_draining_keeps hsound hadd (hopen hl) hd) hp
  | @later n q₁ _ p' _ _ hinner hd hp =>
    refine hpop (ide_draining_keeps hsound hadd ?_ hd) hp
    rcases ide_inner_cases (hsound _ (hstart n)) op with ⟨q₂, hh, he⟩ | ⟨x, parent, pos, t, hl, he⟩ |
      ⟨_, he⟩
    · rw [he, Option.some.injEq] at hinner
      exact hinner ▸ retriedIde_keeps hadd (hstart n) (.held hh)
    · rw [he, Option.map_eq_some_iff] at hinner
      obtain ⟨q₂, hq₂, rfl⟩ := hinner
      rw [fire_tree]
      rcases clearIde_eq x with hc | hc
      · rw [hc] at hq₂
        exact ide_draining_keeps hsound hadd (hopen hl) (drain_draining hq₂).1
      · rw [hc, Option.some.injEq] at hq₂
        exact hq₂ ▸ hopen hl
    · rw [he] at hinner
      exact absurd hinner (by simp)

include hremove

theorem tried_keeps {q p : SharQueue} {call : QueueCall} (hP : P q.tree)
    (h : TriedDuring q call p) : P p.tree := by
  cases h with
  | @network item _ i hr =>
    obtain ⟨p', hd, hpop⟩ := hr
    have hp' : P p'.tree := by
      refine hd.invariant (J := fun p => P p.tree) (fun s j s₁ s₂ hs hpop he => ?_) hP
      obtain ⟨rest, _, rfl⟩ := pop_eq hpop
      rcases retry_cases (q := { s with networkWorklist := rest }) (hsound _ hs) j with
        ⟨s', he', hr⟩ | ⟨he', _⟩
      · rw [he, Option.some.injEq] at he'
        exact he' ▸ retried_keeps hadd hremove (q := { s with networkWorklist := rest }) hs hr
      · rw [he] at he'
        exact absurd he' (by simp)
    obtain ⟨rest, _, rfl⟩ := pop_eq hpop
    exact hp'
  | ideAdd ht => exact ide_tried_keeps hsound hadd hP ht
  | ideRemove => exact hP

end During

section Runs

variable {q₀ q q' : SharQueue} {calls later : List QueueCall}

theorem run_kept {t₀ : SharDirectory} (hidle : Idle q) (h : Kept t₀ q.tree)
    (hrun : calls.foldlM QueueCall.apply q = some q') : Kept t₀ q'.tree ∧ Idle q' :=
  run_keeps (fun _ h => h.1) (fun _ _ _ _ _ => kept_added) (fun _ _ _ _ _ => kept_removed) hidle h
    hrun

/-- In every state of every run, and whenever a call tries an operation, the files are trees
that have grown out of what they were. -/
theorem grows_as_tree {dirPath : PathBuf} {read : Except String (List FsEntry)} {peer : ℕ}
    (hl : SharQueue.new dirPath read peer = some (.ok q₀))
    (hrun : calls.foldlM QueueCall.apply q₀ = some q)
    (hlater : later.foldlM QueueCall.apply q = some q') :
    AllFiles TreeShaped q.tree ∧ GrownTo q.tree q'.tree ∧
      ∀ call p, TriedDuring q call p → AllFiles TreeShaped p.tree ∧ GrownTo q.tree p.tree := by
  have hsound₀ : AllFiles Sound q₀.tree := fun ref f hf =>
    (DeliveryRuns.loaded_files hl ref f hf).toSound
  obtain ⟨hkept, hidle⟩ := run_kept (loaded_idle hl) (kept_refl hsound₀) hrun
  have hsame : Kept q.tree q.tree := kept_refl hkept.1
  refine ⟨kept_trees hkept, (run_kept hidle hsame hlater).1.2, fun call p htried => ?_⟩
  have hp : Kept q.tree p.tree := tried_keeps (fun _ h => h.1) (fun _ _ _ _ _ => kept_added)
    (fun _ _ _ _ _ => kept_removed) hsame htried
  exact ⟨kept_trees hp, hp.2⟩

end Runs

/-- An add that names itself as its parent, and one under the root. -/
def selfParented : List QueueCall :=
  [.network (.add ⟨[.normal "f"], ⟨9, 9, .new 'x' 9 9⟩, 0⟩),
    .network (.add ⟨[.normal "f"], ⟨1, 2, .new 'a' 0 0⟩, 0⟩)]

def rootTargeted : List QueueCall :=
  [.ideRemove ⟨[.rootDir, .normal "s", .normal "f"], 0, 0, 0⟩,
    .network (.remove ⟨[.normal "f"], 1, 2, 0⟩)]

def firstRows (q : SharQueue) : Option Projection := (q.tree.getFile ([], 0)).map SharFile.projection

theorem grows_as_tree_hostile : ∃ q q' : SharQueue,
    firstRows q = some [[(0, 0), (1, 2)]] ∧ firstRows q' = some [[(0, 0)]] ∧
    AllFiles TreeShaped q.tree ∧ GrownTo q.tree q'.tree := by
  have hload : ∃ q₀, SharQueue.new [.rootDir, .normal "s"] emptyEntries 5 = some (.ok q₀) ∧
      q₀ = oneFile "s" 5 noChars [[root]] 0 [] := ⟨_, rfl, rfl⟩
  have hrun : ((selfParented.foldlM QueueCall.apply (oneFile "s" 5 noChars [[root]] 0 [])).bind
      fun q => (rootTargeted.foldlM QueueCall.apply q).map fun q' => (firstRows q, firstRows q')) =
      some (some [[(0, 0), (1, 2)]], some [[(0, 0)]]) := by decide +kernel
  obtain ⟨q₀, hl, rfl⟩ := hload
  rw [Option.bind_eq_some_iff] at hrun
  obtain ⟨q, hrun, hlater⟩ := hrun
  rw [Option.map_eq_some_iff] at hlater
  obtain ⟨q', hlater, hrows⟩ := hlater
  obtain ⟨hq, hq'⟩ := Prod.mk.injEq _ _ _ _ ▸ hrows
  obtain ⟨htree, hgrown, _⟩ := grows_as_tree hl hrun hlater
  exact ⟨q, q', hq, hq', htree, hgrown⟩

end GrowOnlyTree
