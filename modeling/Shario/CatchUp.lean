import Shario.DeliveryRuns
import Shario.QueueRuns

/-! `state_request.rs`: a fresh replica replays the state of another one, character by
character, in whatever order the hash maps list them. -/
namespace CatchUp

open CrdtTypes FileTree TreeOrder CharacterTree FilePlacement FileSafety FileShape DocumentOrder
  Convergence DirectoryTree ShareQueue WorklistDrain TreeCalls QueueSteps QueueRuns NetworkDelivery
  DeliveryRuns PathRouting

def toNetworkOps (state : List (PathBuf × List (Identity × CrdtRelation))) : List NetworkOp :=
  state.flatMap fun (filePath, characters) => characters.flatMap fun (x, relation) =>
    -- the add is always live
    let liveRelation := { relation with deleted := false }
    .add ⟨filePath, ⟨x.1, x.2, liveRelation⟩, 0⟩ ::
      if relation.deleted then [.remove ⟨filePath, x.1, x.2, 0⟩] else []

/-- The loop of `request_state` over the ops it received. -/
def requestState (q : SharQueue) (state : List NetworkOp) : Option SharQueue :=
  state.foldlM deliver q

def entry (e : Identity × CrdtRelation) : Sigma fun _ : Identity => CrdtRelation := ⟨e.1, e.2⟩

/-- `listing` has the entries of each map of `state` in some order. -/
def Enumerates (state : List (PathBuf × Characters))
    (listing : List (PathBuf × List (Identity × CrdtRelation))) : Prop :=
  List.Forall₂ (fun file l => l.1 = file.1 ∧ file.2.entries = l.2.map entry) state listing

/-- `ref` is the file `f` at the relative path `r`. -/
structure At (q : SharQueue) (r : PathBuf) (ref : FileRef) (f : SharFile) : Prop where
  file : q.tree.getFile ref = some f
  path : f.filePath = q.root ++ r

/-- Two queues with the same files, character for character. -/
structure Twins (S T : SharQueue) : Prop where
  paths : ∀ r, (∃ ref f, At S r ref f) ↔ ∃ ref f, At T r ref f
  characters : ∀ r ref ref' f g, At S r ref f → At T r ref' g → f.characters = g.characters

structure CaughtUp (S T : SharQueue) : Prop where
  backlog : T.networkBacklog = ∅
  files : ∀ r ref ref' f g, At S r ref f → At T r ref' g → g.Same f

/-- `S` runs from `S₀`; `T₀` was loaded like `S₀`, and gets the state of `S`. -/
structure Request (S₀ S T₀ : SharQueue) (listing : List (PathBuf × List (Identity × CrdtRelation))) :
    Prop where
  source : ∃ dirPath, Replica dirPath S₀
  target : ∃ dirPath, Replica dirPath T₀
  twins : Twins S₀ T₀
  reached : ∃ calls : List QueueCall, calls.foldlM QueueCall.apply S₀ = some S
  enumerated : Enumerates S.fullState listing

/-- `find_file` routes every file to itself. -/
def RoutesAll (q : SharQueue) : Prop :=
  ∀ ref f, q.tree.getFile ref = some f → q.tree.findFile f.filePath = some ref

section Listing

variable {listing : List (PathBuf × List (Identity × CrdtRelation))} {path : PathBuf}
  {x : Identity} {rel : CrdtRelation}

theorem mem_toNetworkOps_add {op : NetworkAdd} : .add op ∈ toNetworkOps listing ↔
    ∃ l ∈ listing, ∃ e ∈ l.2, op = ⟨l.1, ⟨e.1.1, e.1.2, alive e.2⟩, 0⟩ := by
  simp only [toNetworkOps, List.mem_flatMap, List.mem_cons]
  constructor
  · rintro ⟨l, hl, e, he, h | h⟩
    · exact ⟨l, hl, e, he, NetworkOp.add.inj h⟩
    · split at h <;> simp at h
  · rintro ⟨l, hl, e, he, rfl⟩
    exact ⟨l, hl, e, he, Or.inl rfl⟩

theorem mem_toNetworkOps_remove {op : Remove} : .remove op ∈ toNetworkOps listing ↔
    ∃ l ∈ listing, ∃ e ∈ l.2, e.2.deleted = true ∧ op = ⟨l.1, e.1.1, e.1.2, 0⟩ := by
  simp only [toNetworkOps, List.mem_flatMap, List.mem_cons]
  constructor
  · rintro ⟨l, hl, e, he, h | h⟩
    · exact absurd h (by simp)
    · split at h
      · rename_i hd
        exact ⟨l, hl, e, he, hd, NetworkOp.remove.inj (List.mem_singleton.mp h)⟩
      · simp at h
  · rintro ⟨l, hl, e, he, hd, rfl⟩
    exact ⟨l, hl, e, he, Or.inr (by simp [hd])⟩

theorem enumerates_mem {state : List (PathBuf × Characters)} (h : Enumerates state listing) :
    (∃ l ∈ listing, l.1 = path ∧ (x, rel) ∈ l.2) ↔
      ∃ file ∈ state, file.1 = path ∧ file.2.lookup x = some rel := by
  induction h with
  | nil => simp
  | @cons file l state listing hl _ ih =>
    have hmem : (x, rel) ∈ l.2 ↔ file.2.lookup x = some rel := by
      rw [← Option.mem_def, Finmap.mem_lookup_iff, hl.2, Multiset.mem_coe, List.mem_map]
      constructor
      · exact fun h => ⟨_, h, rfl⟩
      · rintro ⟨⟨y, r⟩, hin, he⟩
        simp only [entry, Sigma.mk.injEq, heq_eq_eq] at he
        exact he.1 ▸ he.2 ▸ hin
    simp only [List.mem_cons, exists_eq_or_imp, ih, hmem, hl.1]

theorem mem_listing {S : SharQueue} (h : Enumerates S.fullState listing) :
    (∃ l ∈ listing, l.1 = path ∧ (x, rel) ∈ l.2) ↔
      ∃ ref f, S.tree.getFile ref = some f ∧ S.toRelativePath f.filePath = path ∧ x ≠ root ∧
        f.characters.lookup x = some rel := by
  rw [enumerates_mem h]
  simp only [SharQueue.fullState, SharDirectory.fullState, List.map_map, List.mem_map,
    Function.comp_apply]
  constructor
  · rintro ⟨_, ⟨f, hf, rfl⟩, rfl, hl⟩
    obtain ⟨ref, hf⟩ := mem_files.mp hf
    have hx : x ≠ root := by
      rintro rfl
      rw [SharFile.fullState, Finmap.lookup_erase] at hl
      exact absurd hl (by simp)
    rw [SharFile.fullState, Finmap.lookup_erase_ne hx] at hl
    exact ⟨ref, f, hf, rfl, hx, hl⟩
  · rintro ⟨ref, f, hf, rfl, hx, hl⟩
    refine ⟨_, ⟨f, mem_files.mpr ⟨ref, hf⟩, rfl⟩, rfl, ?_⟩
    rw [SharFile.fullState, Finmap.lookup_erase_ne hx]
    exact hl

end Listing

structure Grown (t₀ t : SharDirectory) : Prop where
  routes : SameRoutes t₀ t
  sound : AllFiles Sound t
  kept : ∀ ref f₀ f, t₀.getFile ref = some f₀ → t.getFile ref = some f →
    ∀ x s, Carries f₀.characters x s → Carries f.characters x s

section Source

variable {t₀ t u : SharDirectory}

theorem grown_set {ref : FileRef} {f g : SharFile} (h : Grown t₀ t) (hf : t.getFile ref = some f)
    (hpath : g.filePath = f.filePath) (hg : Sound g)
    (hkeep : ∀ x s, Carries f.characters x s → Carries g.characters x s) :
    Grown t₀ (t.setFile ref g) := by
  refine ⟨h.routes.trans (sameRoutes_set hf hpath), allFiles_set h.sound hf hg, ?_⟩
  intro r f₀ f' hf₀ hf' x s hx
  by_cases hr : r = ref
  · subst hr
    rw [SharDirectory.getFile_setFile_self hf, Option.some.injEq] at hf'
    exact hf' ▸ hkeep x s (h.kept r f₀ f hf₀ hf x s hx)
  · rw [SharDirectory.getFile_setFile_ne hr] at hf'
    exact h.kept r f₀ f' hf₀ hf' x s hx

theorem grown_added {path : PathBuf} {c : CRDT} {o : Outcome} (h : Grown t₀ t)
    (ha : TreeAdded t path c o u) : Grown t₀ u := by
  cases ha with
  | lost _ => exact h
  | @routed ref f _ g _ hf ha =>
    refine grown_set h hf (added_path ha) (sound_added (h.sound ref f hf) ha) fun x s hx => ?_
    rcases added_characters ha with he | ⟨hc, he⟩
    · exact he ▸ hx
    · rw [he, carries_insert hc]
      exact Or.inl hx

theorem grown_removed {path : PathBuf} {x : Identity} {o : Outcome} (h : Grown t₀ t)
    (hx : x ≠ root) (hr : TreeRemoved t path x o u) : Grown t₀ u := by
  cases hr with
  | lost _ => exact h
  | @routed ref f _ g _ hf hr =>
    refine grown_set h hf (removed_path hr) (sound_removed (h.sound ref f hf) hx hr) fun y s hy => ?_
    rcases removed_characters hr with he | ⟨rel, hl, he⟩
    · exact he ▸ hy
    · rw [he, carries_mark hl]
      exact hy

end Source

section Request

variable {S₀ S T₀ : SharQueue} {listing : List (PathBuf × List (Identity × CrdtRelation))}
  {r : PathBuf} {ref ref' : FileRef} {f g : SharFile} {x : Identity} {s : CrdtRelation}

theorem request_grown (h : Request S₀ S T₀ listing) : Grown S₀.tree S.tree := by
  obtain ⟨dirPath, hS⟩ := h.source
  obtain ⟨read, peer, _, hnew⟩ := hS.loaded
  have hsound : AllFiles Sound S₀.tree := fun ref f hf => (loaded_files hnew ref f hf).toSound
  have hgrown : Grown S₀.tree S₀.tree := by
    refine ⟨sameRoutes_refl _, hsound, fun ref f₀ f hf₀ hf x s hx => ?_⟩
    rw [hf₀, Option.some.injEq] at hf
    exact hf ▸ hx
  obtain ⟨calls, hrun⟩ := h.reached
  exact (run_keeps (fun _ hP => hP.sound) (fun _ _ _ _ _ => grown_added)
    (fun _ _ _ _ _ => grown_removed) (loaded_idle hnew) hgrown hrun).1

theorem source_at (h : Request S₀ S T₀ listing) (hf : S.tree.getFile ref = some f) :
    ∃ r f₀, At S r ref f ∧ At S₀ r ref f₀ ∧ (∀ c ∈ r, ∃ name, c = .normal name) ∧
      S.toRelativePath f.filePath = r := by
  obtain ⟨dirPath, hS⟩ := h.source
  obtain ⟨_, _, _, hnew⟩ := hS.loaded
  have hroutes := (request_grown h).routes
  have hroot₀ : S₀.root = dirPath := loaded_root hnew
  have hroot : S.root = dirPath := hroutes.dirName.trans hroot₀
  have hpath := hroutes.paths ref
  rw [hf, Option.map_some, eq_comm, Option.map_eq_some_iff] at hpath
  obtain ⟨f₀, hf₀, he⟩ := hpath
  obtain ⟨r, hr, hnormal⟩ := replica_file hS hf₀
  refine ⟨r, f₀, ⟨hf, by rw [← he, hr, hroot]⟩, ⟨hf₀, by rw [hr, hroot₀]⟩, hnormal, ?_⟩
  rw [← he, hr, SharQueue.toRelativePath, stripPrefix, hroot]
  simp

theorem source_unique (h : Request S₀ S T₀ listing) {ref₁ : FileRef} {f₁ : SharFile}
    (hf : At S r ref f) (hf₁ : At S r ref₁ f₁) : ref₁ = ref ∧ f₁ = f := by
  obtain ⟨dirPath, hS⟩ := h.source
  obtain ⟨r', f₀, hr, hf₀, _, _⟩ := source_at h hf.file
  obtain ⟨r₁', f₀₁, hr₁, hf₀₁, _, _⟩ := source_at h hf₁.file
  obtain rfl : r' = r := List.append_cancel_left (hr.path.symm.trans hf.path)
  obtain rfl : r₁' = r' := List.append_cancel_left (hr₁.path.symm.trans hf₁.path)
  obtain rfl : ref₁ = ref := replica_unique hS hf₀₁.file hf₀.file (hf₀₁.path.trans hf₀.path.symm)
  have he := hf₁.file
  rw [hf.file, Option.some.injEq] at he
  exact ⟨rfl, he.symm⟩

theorem target_at (h : Request S₀ S T₀ listing) (hroutes : RoutesAll T₀) (hf : At S r ref f) :
    ∃ ref' g, At T₀ r ref' g ∧ T₀.tree.findFile (T₀.toLocalPath r) = some ref' := by
  obtain ⟨r', f₀, hr, hf₀, hnormal, _⟩ := source_at h hf.file
  obtain rfl : r' = r := List.append_cancel_left (hr.path.symm.trans hf.path)
  obtain ⟨ref', g, hg⟩ := (h.twins.paths r').mp ⟨ref, f₀, hf₀⟩
  obtain ⟨dirPath, hT⟩ := h.target
  obtain ⟨_, _, _, hnew⟩ := hT.loaded
  have hne : T₀.root ≠ [] := by
    rw [loaded_root hnew]
    rintro rfl
    exact absurd hT.absolute (by simp [isAbsolute])
  refine ⟨ref', g, hg, ?_⟩
  rw [SharQueue.toLocalPath, joinPath_normal hnormal hne, ← hg.path]
  exact hroutes ref' g hg.file

theorem listing_pair (h : Request S₀ S T₀ listing) (hroutes : RoutesAll T₀) (hf : At S r ref f)
    (hg : At T₀ r ref' g) {rel : CrdtRelation} {path : PathBuf} :
    ((∃ l ∈ listing, l.1 = path ∧ (x, rel) ∈ l.2) ∧
      T₀.tree.findFile (T₀.toLocalPath path) = some ref') ↔
    path = r ∧ x ≠ root ∧ f.characters.lookup x = some rel := by
  rw [mem_listing h.enumerated]
  have hunique : ∀ {ref₁ g₁}, At T₀ r ref₁ g₁ → ref₁ = ref' := by
    intro ref₁ g₁ hg₁
    obtain ⟨dirPath, hT⟩ := h.target
    exact replica_unique hT hg₁.file hg.file (hg₁.path.trans hg.path.symm)
  constructor
  · rintro ⟨⟨ref₁, f₁, hf₁, rfl, hx, hl⟩, hroute⟩
    obtain ⟨r₁, _, hr₁, _, _, hrel⟩ := source_at h hf₁
    obtain ⟨ref₁', g₁, hg₁, hroute₁⟩ := target_at h hroutes hr₁
    rw [hrel] at hroute ⊢
    rw [hroute₁, Option.some.injEq] at hroute
    subst hroute
    have hgg := hg₁.file
    rw [hg.file, Option.some.injEq] at hgg
    subst hgg
    obtain rfl : r₁ = r := List.append_cancel_left (hg₁.path.symm.trans hg.path)
    obtain ⟨rfl, rfl⟩ := source_unique h hf hr₁
    exact ⟨rfl, hx, hl⟩
  · rintro ⟨rfl, hx, hl⟩
    obtain ⟨r₁, _, hr₁, _, _, hrel⟩ := source_at h hf.file
    obtain rfl : r₁ = path := List.append_cancel_left (hr₁.path.symm.trans hf.path)
    obtain ⟨ref₁, g₁, hg₁, hroute⟩ := target_at h hroutes hf
    exact ⟨⟨ref, f, hf.file, hrel, hx, hl⟩, hunique hg₁ ▸ hroute⟩

theorem offers_pair (h : Request S₀ S T₀ listing) (hroutes : RoutesAll T₀) (hf : At S r ref f)
    (hg : At T₀ r ref' g) :
    Offers T₀ (toNetworkOps listing) ref' x s ↔ x ≠ root ∧ Carries f.characters x s := by
  constructor
  · rintro ⟨op, hop, hroute, rfl, rfl⟩
    obtain ⟨l, hl, ⟨y, rel⟩, he, rfl⟩ := mem_toNetworkOps_add.mp hop
    obtain ⟨_, hx, hlook⟩ := (listing_pair h hroutes hf hg).mp ⟨⟨l, hl, rfl, he⟩, hroute⟩
    exact ⟨hx, rel, hlook, rfl⟩
  · rintro ⟨hx, rel, hl, rfl⟩
    obtain ⟨⟨l, hl, hr, he⟩, hroute⟩ := (listing_pair h hroutes hf hg).mpr ⟨rfl, hx, hl⟩
    exact ⟨_, mem_toNetworkOps_add.mpr ⟨l, hl, _, he, rfl⟩, hr ▸ hroute, rfl, rfl⟩

theorem removes_pair (h : Request S₀ S T₀ listing) (hroutes : RoutesAll T₀) (hf : At S r ref f)
    (hg : At T₀ r ref' g) :
    Removes T₀ (toNetworkOps listing) ref' x ↔ x ≠ root ∧ Tomb f.characters x := by
  constructor
  · rintro ⟨op, hop, hroute, rfl⟩
    obtain ⟨l, hl, ⟨y, rel⟩, he, hd, rfl⟩ := mem_toNetworkOps_remove.mp hop
    obtain ⟨_, hx, hlook⟩ := (listing_pair h hroutes hf hg).mp ⟨⟨l, hl, rfl, he⟩, hroute⟩
    exact ⟨hx, rel, hlook, hd⟩
  · rintro ⟨hx, rel, hl, hd⟩
    obtain ⟨⟨l, hl, hr, he⟩, hroute⟩ := (listing_pair h hroutes hf hg).mpr ⟨rfl, hx, hl⟩
    exact ⟨_, mem_toNetworkOps_remove.mpr ⟨l, hl, _, he, hd, rfl⟩, hr ▸ hroute, rfl⟩

theorem op_pair (h : Request S₀ S T₀ listing) (hroutes : RoutesAll T₀) {i : NetworkOp}
    (hi : i ∈ toNetworkOps listing) : ∃ r ref f ref' g, At S r ref f ∧ At T₀ r ref' g ∧
      route T₀ i = some ref' ∧ subject i ≠ root ∧ key i ∈ f.characters := by
  have hentry : ∀ {l : PathBuf × List (Identity × CrdtRelation)} {y rel}, l ∈ listing →
      (y, rel) ∈ l.2 → ∃ r ref f ref' g, At S r ref f ∧ At T₀ r ref' g ∧
        T₀.tree.findFile (T₀.toLocalPath l.1) = some ref' ∧ y ≠ root ∧
        f.characters.lookup y = some rel := by
    intro l y rel hl he
    obtain ⟨ref, f, hf, hpath, hy, hlook⟩ := (mem_listing h.enumerated).mp ⟨l, hl, rfl, he⟩
    obtain ⟨r, _, hr, _, _, hrel⟩ := source_at h hf
    obtain ⟨ref', g, hg, hroute⟩ := target_at h hroutes hr
    exact ⟨r, ref, f, ref', g, hr, hg, by rw [← hpath, hrel, hroute], hy, hlook⟩
  cases i with
  | add op =>
    obtain ⟨l, hl, ⟨y, rel⟩, he, rfl⟩ := mem_toNetworkOps_add.mp hi
    obtain ⟨r, ref, f, ref', g, hf, hg, hroute, hy, hlook⟩ := hentry hl he
    have hparent := ((request_grown h).sound ref f hf.file).rooted.parent_mem hlook
    exact ⟨r, ref, f, ref', g, hf, hg, hroute, hy, hparent⟩
  | remove op =>
    obtain ⟨l, hl, ⟨y, rel⟩, he, _, rfl⟩ := mem_toNetworkOps_remove.mp hi
    obtain ⟨r, ref, f, ref', g, hf, hg, hroute, hy, hlook⟩ := hentry hl he
    exact ⟨r, ref, f, ref', g, hf, hg, hroute, hy, Finmap.mem_iff.mpr ⟨rel, hlook⟩⟩

theorem carries_unique {m : Characters} {s s' : CrdtRelation} (h : Carries m x s)
    (h' : Carries m x s') : s' = s := by
  obtain ⟨rel, hl, rfl⟩ := h
  obtain ⟨rel', hl', rfl⟩ := h'
  rw [hl, Option.some.injEq] at hl'
  rw [hl']

theorem target_carries (h : Request S₀ S T₀ listing) (hf : At S r ref f) (hg : At T₀ r ref' g)
    (hx : Carries g.characters x s) : Carries f.characters x s := by
  obtain ⟨r', f₀, hr, hf₀, _, _⟩ := source_at h hf.file
  obtain rfl : r' = r := List.append_cancel_left (hr.path.symm.trans hf.path)
  rw [← h.twins.characters r' ref ref' f₀ g hf₀ hg] at hx
  exact (request_grown h).kept ref f₀ f hf₀.file hf.file x s hx

theorem target_loaded (h : Request S₀ S T₀ listing) :
    Fresh T₀ ∧ AllFiles (Genesis · T₀.counter) T₀.tree := by
  obtain ⟨dirPath, hT⟩ := h.target
  obtain ⟨_, _, _, hnew⟩ := hT.loaded
  exact ⟨loaded_fresh hnew, loaded_files hnew⟩

theorem source_grounded (h : Request S₀ S T₀ listing) (hroutes : RoutesAll T₀)
    (hf : At S r ref f) (hg : At T₀ r ref' g) (hx : x ∈ f.characters) :
    Grounded T₀ (toNetworkOps listing) ref' x := by
  have hsound := (request_grown h).sound ref f hf.file
  obtain ⟨p, hp⟩ := hsound.rooted.climbs x hx
  induction hp with
  | root => exact .known ⟨g, hg.file, ((target_loaded h).2 ref' g hg.file).rooted.root_mem⟩
  | @step x y p hxy hp ih =>
    obtain ⟨hxr, rel, hl, rfl⟩ := parentOf_eq_some.mp hxy
    exact .offered ((offers_pair h hroutes hf hg).mpr ⟨hxr, rel, hl, rfl⟩)
      (ih (hsound.rooted.parent_mem hl))

theorem request_deliverable (h : Request S₀ S T₀ listing) (hroutes : RoutesAll T₀) :
    Deliverable T₀ (toNetworkOps listing) := by
  refine ⟨?_, ?_, ?_, ?_, ?_, ?_⟩
  · obtain ⟨dirPath, hT⟩ := h.target
    obtain ⟨_, _, _, hnew⟩ := hT.loaded
    rw [loaded_root hnew]
    exact hT.absolute
  · intro i hi
    obtain ⟨_, _, _, ref', _, _, _, hroute, _, _⟩ := op_pair h hroutes hi
    exact ⟨ref', hroute⟩
  · intro i hi
    obtain ⟨_, _, _, _, _, _, _, _, hx, _⟩ := op_pair h hroutes hi
    exact hx
  · intro a ha
    obtain ⟨_, _, _, _, rfl⟩ := mem_toNetworkOps_add.mp ha
    rfl
  · intro ref' x s s' ho ho'
    obtain ⟨op, hop, hroute, _, _⟩ := id ho
    obtain ⟨r, ref, f, ref₁, g, hf, hg, hroute₁, _, _⟩ := op_pair h hroutes hop
    rw [hroute, Option.some.injEq] at hroute₁
    subst hroute₁
    have hs := ((offers_pair h hroutes hf hg).mp ho).2
    rcases ho' with hh | ho'
    · exact carries_unique hs (target_carries h hf hg ((holds_at hg.file).mp hh))
    · exact carries_unique hs ((offers_pair h hroutes hf hg).mp ho').2
  · intro i hi ref' hroute
    obtain ⟨r, ref, f, ref₁, g, hf, hg, hroute₁, _, hkey⟩ := op_pair h hroutes hi
    rw [hroute, Option.some.injEq] at hroute₁
    subst hroute₁
    exact source_grounded h hroutes hf hg hkey

end Request

/-- An op that its file can take in order. -/
def InOrder (f : SharFile) (op : FileOp) : Prop :=
  (∀ c, op = .add c → c.relation.deleted = false) ∧ Orderly f (0, op)

theorem canonical_rule : FileRule Canonical InOrder where
  sound := fun _ hf => hf.toSound
  add := fun _ c _ _ hf hG ha => canonical_added 0 hf (hG.1 c rfl) hG.2 ha
  lands := fun f _ _ _ hf _ hp hc ha => added_pos (fun x => (hf.live x).mp)
    (fun B he => by
      obtain ⟨u, C, hrows⟩ := hf.headed
      rw [hrows] at he
      exact absurd he (by simp)) hp hc ha
  remove := fun _ _ _ _ hf hx _ hr => canonical_removed hf hx hr
  falls := fun f _ _ _ hf _ hl hr => removed_pos (fun x => (hf.live x).mp) hl hr

theorem shape_break {f : SharFile} {x : Identity} (hf : Shape f) : ¬ BreakInFirstRow f x := by
  rintro ⟨_, hb, row, hrow, hin⟩
  obtain ⟨u, B, hrows, hu⟩ := (shape_rows hf).first
  rw [hrows, List.head?_cons, Option.mem_some_iff] at hrow
  subst hrow
  rcases List.mem_cons.mp hin with rfl | hin
  · exact hf.rooted.root_not_breaks hb
  · exact (hu x hin).2 hb

theorem canonical_same {f g : SharFile} (hf : Canonical f) (h : f.Same g) : Canonical g := by
  obtain ⟨path, m, p⟩ := f
  obtain ⟨path', m', p'⟩ := g
  obtain ⟨hm, hp⟩ := h
  simp only at hm hp
  subst hm hp
  obtain ⟨⟨⟨hne, hknown, hnodup, hrooted⟩, hhead, hlay, hlive⟩, hord⟩ := hf
  exact ⟨⟨⟨hne, hknown, hnodup, hrooted⟩, hhead, hlay, hlive⟩, hord⟩

section Result

variable {S₀ S T₀ T : SharQueue} {listing : List (PathBuf × List (Identity × CrdtRelation))}
  {r : PathBuf} {ref ref' : FileRef} {f g : SharFile}

theorem result_at (hs : Settled T₀ (toNetworkOps listing) T) (hg : At T r ref' g) :
    ∃ g₀, At T₀ r ref' g₀ := by
  have hpath := hs.routes.paths ref'
  rw [hg.file, Option.map_some, eq_comm, Option.map_eq_some_iff] at hpath
  obtain ⟨g₀, hg₀, he⟩ := hpath
  have hroot : T.root = T₀.root := hs.routes.dirName
  exact ⟨g₀, hg₀, by rw [he, hg.path, hroot]⟩

theorem result_characters (h : Request S₀ S T₀ listing) (hroutes : RoutesAll T₀)
    (hs : Settled T₀ (toNetworkOps listing) T) (hf : At S r ref f) (hg : At T r ref' g) :
    g.characters = f.characters := by
  obtain ⟨g₀, hg₀⟩ := result_at hs hg
  have hd := request_deliverable h hroutes
  have hgen := (target_loaded h).2 ref' g₀ hg₀.file
  have hrooted := ((request_grown h).sound ref f hf.file).rooted
  refine characters_ext (fun x s => ?_) fun x => ?_
  · rw [← holds_at hg.file, settled_holds hd hs, holds_at hg₀.file, offers_pair h hroutes hf hg₀]
    constructor
    · rintro (hx | hx)
      · exact target_carries h hf hg₀ hx
      · exact hx.2
    · intro hx
      by_cases hr : x = root
      · subst hr
        have hrel : Carries f.characters root (alive rootRelation) := ⟨_, hrooted.root_entry, rfl⟩
        exact Or.inl ⟨_, hgen.rooted.root_entry, carries_unique hx hrel⟩
      · exact Or.inr ⟨hr, hx⟩
  · rw [← gone_at hg.file, settled_gone hs, gone_at hg₀.file, removes_pair h hroutes hf hg₀]
    constructor
    · rintro (hx | hx)
      · exact absurd hx (hgen.tombless x)
      · exact hx.2
    · exact fun hx => Or.inr ⟨hrooted.tomb_ne_root hx, hx⟩

theorem caught_up_of_canonical (h : Request S₀ S T₀ listing) (hroutes : RoutesAll T₀)
    (hs : Settled T₀ (toNetworkOps listing) T) (hT : AllFiles Canonical T.tree) :
    CaughtUp S T ↔ AllFiles Canonical S.tree := by
  constructor
  · intro hc ref f hf
    obtain ⟨r, _, hr, _, _, _⟩ := source_at h hf
    obtain ⟨ref', g₀, hg₀, _⟩ := target_at h hroutes hr
    obtain ⟨g, hg, he⟩ := hs.routes.file hg₀.file
    have hroot : T.root = T₀.root := hs.routes.dirName
    have hat : At T r ref' g := ⟨hg, by rw [he, hg₀.path, hroot]⟩
    exact canonical_same (hT ref' g hg) (hc.files r ref ref' f g hr hat)
  · intro hS
    refine ⟨hs.backlog, fun r ref ref' f g hf hg => ?_⟩
    exact canonical_unique (hT ref' g hg.file) (hS ref f hf.file)
      (result_characters h hroutes hs hf hg)

/-- A replay in which every retry finds the siblings in order takes over exactly the sources
that are in order themselves, and leaves nothing behind. -/
theorem caught_up_iff (h : Request S₀ S T₀ listing) (hroutes : RoutesAll T₀)
    (horder : ∀ p item ref f, Retries T₀ (toNetworkOps listing) p item →
      route T₀ item = some ref → p.tree.getFile ref = some f → Orderly f (0, fileOp item)) :
    ∃ T, requestState T₀ (toNetworkOps listing) = some T ∧ T.networkBacklog = ∅ ∧
      (CaughtUp S T ↔ AllFiles Canonical S.tree) := by
  have hd := request_deliverable h hroutes
  obtain ⟨hfresh, hgen⟩ := target_loaded h
  have hlive : ∀ item ref c, Listed T₀ (toNetworkOps listing) item → route T₀ item = some ref →
      fileOp item = .add c → c.relation.deleted = false := by
    intro item ref c hl hr hc
    cases item with
    | add op =>
      obtain ⟨op', hop', _, _, he⟩ := offers_of_listed hl hr
      obtain ⟨l, _, e, _, rfl⟩ := mem_toNetworkOps_add.mp hop'
      rw [← FileOp.add.inj hc, ← he]
      rfl
    | remove op => exact absurd hc (by simp [fileOp])
  obtain ⟨T, hT, hJ, hw⟩ := run_delivering canonical_rule
    (fun _ _ hf _ => shape_break hf.toShape) hd
    (fun ref f hf => (hgen ref f hf).toCanonical) hfresh fun p item ref f hin _ hl hr hf _ =>
      ⟨fun c hc => hlive item ref c hl hr hc, horder p item ref f hin hr hf⟩
  have hs := delivering_settled hd hJ hw
  exact ⟨T, hT, hs.backlog, caught_up_of_canonical h hroutes hs hJ.files⟩

end Result

theorem twins_single {S T : SharQueue} {f g : SharFile} {r : PathBuf} (hS : S.tree.files = [f])
    (hT : T.tree.files = [g]) (hf : f.filePath = S.root ++ r) (hg : g.filePath = T.root ++ r)
    (hc : f.characters = g.characters) : Twins S T := by
  have hat : ∀ {q : SharQueue} {h : SharFile}, q.tree.files = [h] → h.filePath = q.root ++ r →
      ∀ r' ref h', At q r' ref h' → h' = h ∧ r' = r := by
    intro q h hfiles hpath r' ref h' hh
    have hin : h' ∈ q.tree.files := mem_files.mpr ⟨ref, hh.file⟩
    rw [hfiles, List.mem_singleton] at hin
    subst hin
    exact ⟨rfl, List.append_cancel_left (hh.path.symm.trans hpath)⟩
  have hex : ∀ {q : SharQueue} {h : SharFile}, q.tree.files = [h] → h.filePath = q.root ++ r →
      ∃ ref h', At q r ref h' := by
    intro q h hfiles hpath
    obtain ⟨ref, href⟩ := mem_files.mp (by rw [hfiles]; exact List.mem_singleton.mpr rfl)
    exact ⟨ref, h, href, hpath⟩
  refine ⟨fun r' => ⟨?_, ?_⟩, fun r' ref ref' f' g' hf' hg' => ?_⟩
  · rintro ⟨ref, h, hh⟩
    rw [(hat hS hf r' ref h hh).2]
    exact hex hT hg
  · rintro ⟨ref, h, hh⟩
    rw [(hat hT hg r' ref h hh).2]
    exact hex hS hf
  · rw [(hat hS hf r' ref f' hf').1, (hat hT hg r' ref' g' hg').1, hc]

theorem routes_single {T : SharQueue} {dirPath : PathBuf} {g : SharFile} {ref : FileRef}
    (hT : Replica dirPath T) (hfiles : T.tree.files = [g]) (hg : T.tree.getFile ref = some g)
    (hroute : T.tree.findFile g.filePath = some ref) : RoutesAll T := by
  intro ref' g' hg'
  have hin : g' ∈ T.tree.files := mem_files.mpr ⟨ref', hg'⟩
  rw [hfiles, List.mem_singleton] at hin
  subst hin
  rw [replica_unique hT hg' hg rfl]
  exact hroute

/-- `x` has come and gone, and its child is listed before it. -/
def childFirst : List (PathBuf × List (Identity × CrdtRelation)) :=
  [([.normal "f"], [((2, 5), .new 'y' 1 5), ((1, 5), ⟨'x', 0, 0, true⟩)])]

def goneAdd : NetworkOp := .add ⟨[.normal "f"], ⟨1, 5, .new 'x' 0 0⟩, 0⟩
def goneRemove : NetworkOp := .remove ⟨[.normal "f"], 1, 5, 0⟩
def childAdd : NetworkOp := .add ⟨[.normal "f"], ⟨2, 5, .new 'y' 1 5⟩, 0⟩

def targetPath : PathBuf := [.rootDir, .normal "t", .normal "f"]

def waitingChild : NetworkOp := .add ⟨targetPath, ⟨2, 5, .new 'y' 1 5⟩, 0⟩

def withChild : Characters :=
  (noChars.insert (1, 5) (.new 'x' 0 0)).insert (2, 5) (.new 'y' 1 5)

def emptyTarget : SharQueue := oneFile "t" 2 noChars [[root]] 0 []

def parkedChild (fired : List Callback) : SharQueue :=
  { oneFile "t" 2 noChars [[root]] 2 fired with
    networkBacklog := push ∅ (1, 5) waitingChild }

def wokenChild (fired : List Callback) : SharQueue :=
  { oneFile "t" 2 (noChars.insert (1, 5) (.new 'x' 0 0)) [[root, (1, 5)]] 2 fired with
    networkBacklog := (push ∅ (1, 5) waitingChild).erase (1, 5) }

def bothLanded (fired : List Callback) : SharQueue :=
  { oneFile "t" 2 withChild [[root, (1, 5), (2, 5)]] 2 fired with
    networkBacklog := (push ∅ (1, 5) waitingChild).erase (1, 5) }

theorem childFirst_orderly {p : SharQueue} {item : NetworkOp} {ref : FileRef} {f : SharFile}
    (hr : Retries emptyTarget [childAdd, goneAdd, goneRemove] p item)
    (hroute : route emptyTarget item = some ref) (hf : p.tree.getFile ref = some f) :
    Orderly f (0, fileOp item) := by
  have h₁ : ∃ t l, emptyTarget.retryNetwork childAdd = some t ∧ t.popNetwork = none ∧
      deliver emptyTarget childAdd = some (parkedChild l) := ⟨_, _, rfl, rfl, rfl⟩
  obtain ⟨t₁, l₁, ht₁, hidle₁, hd₁⟩ := h₁
  have h₂ : ∃ t l, (parkedChild l₁).retryNetwork goneAdd = some t ∧
      t.popNetwork = some (waitingChild, wokenChild l) := ⟨_, _, rfl, rfl⟩
  obtain ⟨t₂, l₂, ht₂, hpop₂⟩ := h₂
  have h₃ : ∃ u, (wokenChild l₂).retryNetwork waitingChild = some u ∧ u.popNetwork = none :=
    ⟨_, rfl, rfl⟩
  obtain ⟨u₂, hu₂, hidle₂⟩ := h₃
  have h₄ : ∃ q, deliver (parkedChild l₁) goneAdd = some q ∧ q = bothLanded q.fired := ⟨_, rfl, rfl⟩
  obtain ⟨q₃, hd₂, hq₃⟩ := h₄
  rw [hq₃] at hd₂
  generalize q₃.fired = l₃ at hd₂
  have h₅ : ∃ u, (bothLanded l₃).retryNetwork goneRemove = some u ∧ u.popNetwork = none :=
    ⟨_, rfl, rfl⟩
  obtain ⟨u₃, hu₃, hidle₃⟩ := h₅
  obtain ⟨pre, first, post, q, hsplit, hpre, hin⟩ := hr
  rcases pre with _ | ⟨a, _ | ⟨a', pre⟩⟩
  · -- the parent is not there yet
    obtain rfl : emptyTarget = q := Option.some.inj hpre
    rw [List.nil_append, List.cons.injEq] at hsplit
    obtain ⟨rfl, rfl⟩ := retriedIn_idle rfl ht₁ hidle₁ (hsplit.1 ▸ hin)
    obtain rfl : ([], 0) = ref := Option.some.inj hroute
    obtain rfl : emptyFile targetPath = f := Option.some.inj hf
    intro c hc _ hp
    cases hc
    exact absurd hp (by decide)
  · simp only [List.cons_append, List.nil_append, List.cons.injEq] at hsplit
    obtain ⟨rfl, rfl, rfl⟩ := hsplit
    obtain rfl : parkedChild l₁ = q := by simpa [hd₁] using hpre
    rcases retriedIn_woken rfl ht₂ hpop₂ hu₂ hidle₂ hin with ⟨rfl, rfl⟩ | ⟨rfl, rfl⟩
    · obtain rfl : ([], 0) = ref := Option.some.inj hroute
      obtain rfl : emptyFile targetPath = f := Option.some.inj hf
      refine newest_orderly 0 (fun x hx => ?_) ⟨_, rfl, rfl⟩
      rcases Finmap.mem_insert.mp hx with rfl | hx
      · exact Nat.zero_lt_one
      · exact absurd hx Finmap.notMem_empty
    · obtain rfl : ([], 0) = ref := Option.some.inj hroute
      obtain rfl : ⟨targetPath, noChars.insert (1, 5) (.new 'x' 0 0), [[root, (1, 5)]]⟩ = f :=
        Option.some.inj hf
      refine newest_orderly 0 (fun x hx => ?_) ⟨_, rfl, rfl⟩
      rcases Finmap.mem_insert.mp hx with rfl | hx
      · exact Nat.one_lt_two
      rcases Finmap.mem_insert.mp hx with rfl | hx
      · exact Nat.zero_lt_two
      · exact absurd hx Finmap.notMem_empty
  · simp only [List.cons_append, List.cons.injEq] at hsplit
    obtain ⟨rfl, rfl, hsplit⟩ := hsplit
    cases pre with
    | nil =>
      rw [List.nil_append, List.cons.injEq] at hsplit
      obtain rfl : bothLanded l₃ = q := by simpa [hd₁, hd₂] using hpre
      obtain ⟨rfl, rfl⟩ := retriedIn_idle rfl hu₃ hidle₃ (hsplit.1 ▸ hin)
      exact fun c hc => absurd hc (by simp [goneRemove, fileOp])
    | cons c pre => simp at hsplit

theorem caught_up_iff_child_first : ∃ S₀ S T, Request S₀ S emptyTarget childFirst ∧
    requestState emptyTarget (toNetworkOps childFirst) = some T ∧ T.networkBacklog = ∅ ∧
    (CaughtUp S T ↔ AllFiles Canonical S.tree) := by
  have h₁ : ∃ l, deliver (oneFile "s" 1 noChars [[root]] 0 []) goneAdd =
      some (oneFile "s" 1 (noChars.insert (1, 5) (.new 'x' 0 0)) [[root, (1, 5)]] 1 l) := ⟨_, rfl⟩
  obtain ⟨l₁, h₁⟩ := h₁
  have h₂ : ∃ l, deliver (oneFile "s" 1 (noChars.insert (1, 5) (.new 'x' 0 0)) [[root, (1, 5)]] 1 l₁)
      childAdd = some (oneFile "s" 1 withChild [[root, (1, 5), (2, 5)]] 2 l) := ⟨_, rfl⟩
  obtain ⟨l₂, h₂⟩ := h₂
  have h₃ : ∃ l, deliver (oneFile "s" 1 withChild [[root, (1, 5), (2, 5)]] 2 l₂) goneRemove =
      some (oneFile "s" 1 (mark withChild (1, 5) (.new 'x' 0 0)) [[root, (2, 5)]] 2 l) := ⟨_, rfl⟩
  obtain ⟨l₃, h₃⟩ := h₃
  have hS : [QueueCall.network goneAdd, .network childAdd, .network goneRemove].foldlM
      QueueCall.apply (oneFile "s" 1 noChars [[root]] 0 []) =
        some (oneFile "s" 1 (mark withChild (1, 5) (.new 'x' 0 0)) [[root, (2, 5)]] 2 l₃) := by
    simp only [List.foldlM_cons, List.foldlM_nil, QueueCall.apply, h₁, h₂, h₃, Option.bind_eq_bind,
      Option.bind_some]
    rfl
  have hentries : ((mark withChild (1, 5) (.new 'x' 0 0)).erase root).entries =
      [((2, 5), CrdtRelation.new 'y' 1 5), ((1, 5), ⟨'x', 0, 0, true⟩)].map entry := by decide
  have hT := oneFile_replica "t" 2
  have hreq : Request (oneFile "s" 1 noChars [[root]] 0 []) _ emptyTarget childFirst :=
    ⟨⟨_, oneFile_replica "s" 1⟩, ⟨_, hT⟩, twins_single rfl rfl (r := [.normal "f"]) rfl rfl rfl,
      ⟨_, hS⟩, .cons ⟨rfl, hentries⟩ .nil⟩
  have hroutes : RoutesAll emptyTarget :=
    @routes_single _ _ _ ([], 0) hT rfl rfl (by decide)
  obtain ⟨T, hrun, hb, hiff⟩ := caught_up_iff hreq hroutes fun p item ref f hr hroute hf => by
    have hops : toNetworkOps childFirst = [childAdd, goneAdd, goneRemove] := rfl
    exact childFirst_orderly (hops ▸ hr) hroute hf
  exact ⟨_, _, T, hreq, hrun, hb, hiff⟩

def addX : NetworkOp := .add ⟨[.normal "f"], ⟨5, 2, .new 'x' 0 0⟩, 0⟩
def addS : NetworkOp := .add ⟨[.normal "f"], ⟨10, 1, .new 's' 0 0⟩, 0⟩
def addC : NetworkOp := .add ⟨[.normal "f"], ⟨11, 1, .new 'c' 10 1⟩, 0⟩

def listed : List (Identity × CrdtRelation) :=
  [((10, 1), .new 's' 0 0), ((11, 1), .new 'c' 10 1), ((5, 2), .new 'x' 0 0)]

def withX (m : Characters) : Characters := m.insert (5, 2) (.new 'x' 0 0)
def withS (m : Characters) : Characters := m.insert (10, 1) (.new 's' 0 0)
def withC (m : Characters) : Characters := m.insert (11, 1) (.new 'c' 10 1)

/-- The source gets `x`, then `s` before it, then `c` behind `s`, and each finds its place.
The replay brings `x` last, which then stops between `s` and `c`. -/
theorem replay_diverges : ¬ ∀ S₀ S T₀ T listing, Request S₀ S T₀ listing →
    requestState T₀ (toNetworkOps listing) = some T → CaughtUp S T := by
  intro h
  have hsource : ∃ l, [QueueCall.network addX, .network addS, .network addC].foldlM QueueCall.apply
      (oneFile "s" 1 noChars [[root]] 0 []) = some (oneFile "s" 1 (withC (withS (withX noChars)))
        [[root, (10, 1), (11, 1), (5, 2)]] 11 l) := by
    have h₁ : ∃ l, deliver (oneFile "s" 1 noChars [[root]] 0 []) addX =
        some (oneFile "s" 1 (withX noChars) [[root, (5, 2)]] 5 l) := ⟨_, rfl⟩
    obtain ⟨l₁, h₁⟩ := h₁
    have h₂ : ∃ l, deliver (oneFile "s" 1 (withX noChars) [[root, (5, 2)]] 5 l₁) addS =
        some (oneFile "s" 1 (withS (withX noChars)) [[root, (10, 1), (5, 2)]] 10 l) := ⟨_, rfl⟩
    obtain ⟨l₂, h₂⟩ := h₂
    have h₃ : ∃ l, deliver (oneFile "s" 1 (withS (withX noChars)) [[root, (10, 1), (5, 2)]] 10 l₂)
        addC = some (oneFile "s" 1 (withC (withS (withX noChars)))
          [[root, (10, 1), (11, 1), (5, 2)]] 11 l) := ⟨_, rfl⟩
    obtain ⟨l₃, h₃⟩ := h₃
    exact ⟨l₃, by simp [QueueCall.apply, h₁, h₂, h₃]⟩
  have htarget : ∃ l, requestState (oneFile "t" 2 noChars [[root]] 0 []) [addS, addC, addX] =
      some (oneFile "t" 2 (withX (withC (withS noChars))) [[root, (10, 1), (5, 2), (11, 1)]] 11 l) := by
    have h₁ : ∃ l, deliver (oneFile "t" 2 noChars [[root]] 0 []) addS =
        some (oneFile "t" 2 (withS noChars) [[root, (10, 1)]] 10 l) := ⟨_, rfl⟩
    obtain ⟨l₁, h₁⟩ := h₁
    have h₂ : ∃ l, deliver (oneFile "t" 2 (withS noChars) [[root, (10, 1)]] 10 l₁) addC =
        some (oneFile "t" 2 (withC (withS noChars)) [[root, (10, 1), (11, 1)]] 11 l) := ⟨_, rfl⟩
    obtain ⟨l₂, h₂⟩ := h₂
    have h₃ : ∃ l, deliver (oneFile "t" 2 (withC (withS noChars)) [[root, (10, 1), (11, 1)]] 11 l₂)
        addX = some (oneFile "t" 2 (withX (withC (withS noChars)))
          [[root, (10, 1), (5, 2), (11, 1)]] 11 l) := ⟨_, rfl⟩
    obtain ⟨l₃, h₃⟩ := h₃
    exact ⟨l₃, by simp [requestState, h₁, h₂, h₃]⟩
  obtain ⟨l, hsource⟩ := hsource
  obtain ⟨k, htarget⟩ := htarget
  have hentries : ((withC (withS (withX noChars))).erase root).entries = listed.map entry := by
    decide
  have hreq : Request (oneFile "s" 1 noChars [[root]] 0 []) _ (oneFile "t" 2 noChars [[root]] 0 [])
      [([.normal "f"], listed)] :=
    ⟨⟨_, rfl, rfl, emptyEntries, 1, emptyEntries_distinct, rfl⟩,
      ⟨_, rfl, rfl, emptyEntries, 2, emptyEntries_distinct, rfl⟩,
      twins_single rfl rfl (r := [.normal "f"]) rfl rfl rfl, ⟨_, hsource⟩,
      .cons ⟨rfl, hentries⟩ .nil⟩
  have hsame := (h _ _ _ _ _ hreq htarget).files [.normal "f"] ([], 0) ([], 0) _ _
    ⟨rfl, rfl⟩ ⟨rfl, rfl⟩
  exact absurd hsame.2 (by decide)

end CatchUp
