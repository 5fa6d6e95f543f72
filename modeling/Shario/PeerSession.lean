import Shario.BacklogKeys
import Shario.CatchUp
import Shario.NewIdentities

/-! Peers that share a directory. Each has its own queue and its own IDE, and what a queue hands
to `ide_add_callback` or `ide_remove_callback` is broadcast. A message may come late, more than
once, out of order or never, and any peer may answer a state request at any time. -/
namespace PeerSession

open CrdtTypes FileTree CharacterTree FilePlacement FileSafety Convergence DirectoryTree ShareQueue
  WorklistDrain TreeCalls QueueSteps IdeSteps QueueRuns NetworkDelivery DeliveryRuns PathRouting
  CatchUp BacklogKeys NewIdentities GuardedRuns

inductive Edit where
  | add (op : IdeAdd)
  | remove (op : Remove)

def Edit.call : Edit → QueueCall
  | .add op => .ideAdd op
  | .remove op => .ideRemove op

def Edit.path : Edit → PathBuf
  | .add op => op.filePath
  | .remove op => op.filePath

/-- What a callback hands to the gossip sender; the others talk to the IDE alone. -/
def broadcast : Callback → Option NetworkOp
  | .ideAdd networkOp _ => some (.add networkOp)
  | .ideRemove op => some (.remove op)
  | _ => none

def issued (q : SharQueue) : List NetworkOp := q.fired.filterMap broadcast

/-- `received` and `answered` are histories: a message stays on the wire. -/
structure Session (ι : Type) where
  queue : ι → SharQueue
  received : ι → List NetworkOp
  answered : List NetworkOp

section Session

variable {ι : Type}

def Session.OnWire (σ : Session ι) (item : NetworkOp) : Prop :=
  item ∈ σ.answered ∨ ∃ j, item ∈ issued (σ.queue j)

/-- What peer `i` has issued or received. -/
def Session.ops (σ : Session ι) (i : ι) : List NetworkOp := issued (σ.queue i) ++ σ.received i

inductive Event (ι : Type) where
  | edit (i : ι) (e : Edit)
  | receive (i : ι) (item : NetworkOp)
  | answer (j : ι) (listing : List (PathBuf × List (Identity × CrdtRelation)))

inductive Transition [DecidableEq ι] (σ : Session ι) : Event ι → Session ι → Prop where
  | edit {i e q} : e.call.apply (σ.queue i) = some q →
      Transition σ (.edit i e) { σ with queue := Function.update σ.queue i q }
  | receive {i item q} : σ.OnWire item → deliver (σ.queue i) item = some q →
      Transition σ (.receive i item)
        { σ with
          queue := Function.update σ.queue i q
          received := Function.update σ.received i (σ.received i ++ [item]) }
  | answer {j listing} : Enumerates (σ.queue j).fullState listing →
      Transition σ (.answer j listing) { σ with answered := σ.answered ++ toNetworkOps listing }

end Session

/-- Peers that loaded the same content, each from a directory of its own, and drew different
peer ids. Every file is reached under its own path. -/
structure Peers (ι : Type) where
  dirPath : ι → PathBuf
  loaded : ι → SharQueue
  replica : ∀ i, Replica (dirPath i) (loaded i)
  routes : ∀ i, RoutesAll (loaded i)
  twins : ∀ i j, Twins (loaded i) (loaded j)
  distinct : Function.Injective fun i => (loaded i).peer

def Peers.start {ι : Type} (P : Peers ι) : Session ι := ⟨P.loaded, fun _ => [], []⟩

/-- An edit names a file of its own peer, as the IDE does. -/
def Named {ι : Type} (P : Peers ι) (_ : Session ι) : Event ι → Prop
  | .edit i e => Names (P.loaded i) e.path
  | _ => True

section Home

variable {ι : Type} {P : Peers ι} {i j : ι} {r r' path : PathBuf} {ref ref' : FileRef}
  {q : SharQueue} {x : Identity} {s : CrdtRelation} {item : NetworkOp} {f : SharFile}

/-- `ref` is the file at the relative path `r`, at peer `i`. -/
def Home (P : Peers ι) (i : ι) (r : PathBuf) (ref : FileRef) : Prop := ∃ f, At (P.loaded i) r ref f

theorem home_path (h : Home P i r ref) (h' : Home P i r' ref) : r' = r := by
  obtain ⟨f, hf⟩ := h
  obtain ⟨g, hg⟩ := h'
  have he := hg.file
  rw [hf.file, Option.some.injEq] at he
  subst he
  exact List.append_cancel_left (hg.path.symm.trans hf.path)

theorem home_other (h : Home P i r ref) (j : ι) : ∃ ref', Home P j r ref' := by
  obtain ⟨f, hf⟩ := h
  obtain ⟨ref', g, hg⟩ := ((P.twins i j).paths r).mp ⟨ref, f, hf⟩
  exact ⟨ref', g, hg⟩

theorem peers_root (P : Peers ι) (i : ι) : (P.loaded i).root = P.dirPath i := by
  obtain ⟨_, _, _, hnew⟩ := (P.replica i).loaded
  exact loaded_root hnew

theorem home_of_file (hf : (P.loaded i).tree.getFile ref = some f) :
    ∃ r, Home P i r ref ∧ f.filePath = (P.loaded i).root ++ r := by
  obtain ⟨r, hr, _⟩ := replica_file (P.replica i) hf
  rw [← peers_root P i] at hr
  exact ⟨r, ⟨f, hf, hr⟩, hr⟩

theorem home_local (h : Home P i r ref) :
    (P.loaded i).toLocalPath r = (P.loaded i).root ++ r ∧
      (P.loaded i).tree.findFile ((P.loaded i).root ++ r) = some ref := by
  obtain ⟨f, hf⟩ := h
  obtain ⟨r', hr, hnormal⟩ := replica_file (P.replica i) hf.file
  have hroot := peers_root P i
  obtain rfl : r' = r := by
    rw [hf.path, hroot] at hr
    exact (List.append_cancel_left hr).symm
  have hne : (P.loaded i).root ≠ [] := by
    intro he
    have habs := (P.replica i).absolute
    rw [← hroot, he] at habs
    exact absurd habs (by simp [isAbsolute])
  exact ⟨joinPath_normal hnormal hne, hf.path ▸ P.routes i ref f hf.file⟩

theorem home_relative (P : Peers ι) (i : ι) (r : PathBuf) :
    (P.loaded i).toRelativePath ((P.loaded i).root ++ r) = r := by
  simp [SharQueue.toRelativePath, stripPrefix]

theorem home_route (h : Home P i (itemPath item) ref) : route (P.loaded i) item = some ref := by
  obtain ⟨hlocal, hfind⟩ := home_local h
  cases item with
  | add op => exact (congrArg _ hlocal).trans hfind
  | remove op => exact (congrArg _ hlocal).trans hfind

theorem names_home (h : Names (P.loaded i) path) :
    ∃ r ref, Home P i r ref ∧ path = (P.loaded i).root ++ r := by
  obtain ⟨ref, f, _, hf, rfl⟩ := h
  obtain ⟨r, hr, he⟩ := home_of_file hf
  exact ⟨r, ref, hr, he⟩

theorem peers_absolute (P : Peers ι) (i : ι) : isAbsolute (P.loaded i).root = true := by
  rw [peers_root]
  exact (P.replica i).absolute

theorem at_home (hs : SameRoutes (P.loaded i).tree q.tree) (h : At q r ref f) : Home P i r ref := by
  have hp := hs.paths ref
  rw [h.file, Option.map_some, eq_comm, Option.map_eq_some_iff] at hp
  obtain ⟨g, hg, he⟩ := hp
  have hroot : q.root = (P.loaded i).root := hs.dirName
  exact ⟨g, hg, by rw [he, h.path, hroot]⟩

theorem home_at (hs : SameRoutes (P.loaded i).tree q.tree) (h : Home P i r ref) :
    ∃ f, At q r ref f := by
  obtain ⟨g, hg⟩ := h
  obtain ⟨f, hf, he⟩ := hs.file hg.file
  have hroot : q.root = (P.loaded i).root := hs.dirName
  exact ⟨f, hf, by rw [he, hg.path, hroot]⟩

theorem holds_home (hs : SameRoutes (P.loaded i).tree q.tree) (h : Holds q ref x s) :
    ∃ r, Home P i r ref := by
  obtain ⟨f, hf, _⟩ := h
  have hp := hs.paths ref
  rw [hf, Option.map_some, eq_comm, Option.map_eq_some_iff] at hp
  obtain ⟨g, hg, _⟩ := hp
  obtain ⟨r, hr, _⟩ := home_of_file hg
  exact ⟨r, hr⟩

theorem home_loaded (h : Home P i r ref) (h' : Home P j r ref') (hx : Holds (P.loaded i) ref x s) :
    Holds (P.loaded j) ref' x s := by
  obtain ⟨f, hf⟩ := h
  obtain ⟨g, hg⟩ := h'
  rw [holds_at hg.file, ← (P.twins i j).characters r ref ref' f g hf hg, ← holds_at hf.file]
  exact hx

end Home

section Growth

variable {q q' : SharQueue} {t : SharDirectory} {path : PathBuf} {c : CRDT} {x : Identity}
  {o : Outcome}

theorem added_holds (ha : TreeAdded q.tree path c o t) (ht : q'.tree = t) (r : FileRef)
    (y : Identity) (s : CrdtRelation) : (Holds q r y s → Holds q' r y s) ∧
      (Holds q' r y s → Holds q r y s ∨
        q.tree.findFile path = some r ∧ y = c.identity ∧ s = alive c.relation) := by
  cases ha with
  | lost _ =>
    have hsame := (sameKnowledge_tree ht).holds r y s
    exact ⟨hsame.mpr, fun h => Or.inl (hsame.mp h)⟩
  | @routed ref f _ g hr hf ha =>
    rcases added_characters ha with he | ⟨hc, he⟩
    · have hsame := (sameKnowledge_set hf ht he).holds r y s
      exact ⟨hsame.mpr, fun h => Or.inl (hsame.mp h)⟩
    · rw [(knowledge_landed hf ht hc he).1 r y s]
      exact ⟨Or.inl, Or.imp id fun ⟨hr', hy, hs⟩ => ⟨hr' ▸ hr, hy, hs⟩⟩

theorem removed_holds (hr : TreeRemoved q.tree path x o t) (ht : q'.tree = t) (r : FileRef)
    (y : Identity) (s : CrdtRelation) : Holds q' r y s ↔ Holds q r y s := by
  cases hr with
  | lost _ => exact (sameKnowledge_tree ht).holds r y s
  | @routed ref f _ g _ hf hr =>
    rcases removed_characters hr with he | ⟨rel, hl, he⟩
    · exact (sameKnowledge_set hf ht he).holds r y s
    · exact (knowledge_marked hf ht hl he).1 r y s

theorem landed_holds {pos : Position} (hs : AllFiles Sound q.tree)
    (ha : TreeAdded q.tree path c (.ok (some pos)) t) (ht : q'.tree = t) :
    ∃ ref, q.tree.findFile path = some ref ∧ Holds q' ref c.identity (alive c.relation) ∧
      Known q ref c.relation.parent := by
  cases ha with
  | @routed ref f _ g hr hf ha =>
    obtain ⟨hp, hc, he⟩ := added_lands (hs ref f hf) ha
    exact ⟨ref, hr, ((knowledge_landed hf ht hc he).1 ref _ _).mpr (Or.inr ⟨rfl, rfl, rfl⟩),
      (known_at hf).mpr hp⟩

theorem fallen_holds {pos : Position} (ha : TreeRemoved q.tree path x (.ok (some pos)) t) :
    ∃ ref s, q.tree.findFile path = some ref ∧ Holds q ref x s := by
  cases ha with
  | @routed ref f _ g hr hf ha =>
    obtain ⟨rel, hl, _⟩ := removed_falls ha
    exact ⟨ref, alive rel, hr, f, hf, rel, hl, rfl⟩

end Growth

section Log

variable (q : SharQueue) (x : Identity) (op : IdeAdd) (n : ℕ) (c : Callback)

@[simp] theorem issued_fire : issued (q.fire c) = issued q ++ (broadcast c).toList := by
  simp only [issued, SharQueue.fire, List.filterMap_append, List.filterMap_cons, List.filterMap_nil]
  cases broadcast c <;> rfl

@[simp] theorem queueIde_issued : issued (q.queueIdeBacklog x) = issued q := by simp [issued]

@[simp] theorem enlisted_issued : issued (enlisted q op n) = issued q := by simp [issued, broadcast]

end Log

theorem retried_issued {q q' : SharQueue} {item : NetworkOp} (h : Retried q item q') :
    issued q' = issued q := by
  cases h with
  | landed _ _ =>
    rw [issued, queueNetwork_fired]
    exact (issued_fire _ _).trans (List.append_nil _)
  | fallen _ _ => exact (issued_fire _ _).trans (List.append_nil _)
  | rootAdd _ => rfl
  | repeated _ _ => rfl
  | early _ _ => rfl
  | rootRemove _ => rfl
  | again _ _ => rfl
  | earlyRemove _ _ => rfl

/-- What an IDE add that lands as `x` broadcasts. -/
def shownOp (q : SharQueue) (op : IdeAdd) (x parent : Identity) (pos : Position) : NetworkAdd :=
  ⟨q.toRelativePath op.filePath, ideCrdt op x parent, pos.1⟩

/-- The rule for an IDE add that returns, when the invariant knows what the call has applied
but not yet logged: its own entry, while the operations that it woke are tried. -/
theorem addIde_owing {J : List NetworkOp → SharQueue → Prop} {q : SharQueue} {op : IdeAdd}
    (hsound : ∀ owed p, J owed p → AllFiles Sound p.tree)
    (hshow : ∀ p x parent pos, J [.add (shownOp q op x parent pos)] p →
      J [] (p.fire (ideShown p op x parent pos)))
    (hheld : ∀ n q', tick q.counter = some n → Held (enlisted q op n) op q' → J [] q')
    (hopen : ∀ n x parent pos t, tick q.counter = some n → Lands (enlisted q op n) op x parent pos t →
      J [.add (shownOp q op x parent pos)] ((withTree (enlisted q op n) t).queueIdeBacklog x))
    (hstep : ∀ owed p item p₁ p₂, J owed p → p.popIde = some (item, p₁) →
      RetriedIde p₁ item p₂ → J owed p₂)
    (hs : AllFiles Sound q.tree) {q' : SharQueue} (h : q.addIdeOperation op = some q') :
    J [] q' ∧ q'.ideWorklist = [] := by
  simp only [SharQueue.addIdeOperation, Option.bind_eq_bind, Option.bind_eq_some_iff] at h
  obtain ⟨n, hn, q₁, hq₁, h⟩ := h
  have hinner : (enlisted q op n).addIdeOperationInner op SharQueue.clearIdeBacklog = some q₁ := hq₁
  suffices hJ : J [] q₁ from drainIde_keeps (hsound [])
    (fun p item p₁ p₂ hp _ hpop hr => hstep [] p item p₁ p₂ hp hpop hr) hJ h
  have hs' : AllFiles Sound (enlisted q op n).tree := by
    rw [enlisted_tree]
    exact hs
  rcases ide_inner_cases hs' op with ⟨q₂, hh, he⟩ | ⟨x, parent, pos, t, hl, he⟩ | ⟨_, he⟩
  · rw [he, Option.some.injEq] at hinner
    exact hinner ▸ hheld n q₂ hn hh
  · rw [he, Option.map_eq_some_iff] at hinner
    obtain ⟨q₂, hq₂, rfl⟩ := hinner
    apply hshow
    have hJ := hopen n x parent pos t hn hl
    rcases clearIde_eq x with hc | hc
    · rw [hc] at hq₂
      exact (drainIde_keeps (hsound _) (fun p item p₁ p₂ hp _ hpop hr =>
        hstep _ p item p₁ p₂ hp hpop hr) hJ hq₂).1
    · rw [hc, Option.some.injEq] at hq₂
      exact hq₂ ▸ hJ
  · rw [he] at hinner
    exact absurd hinner (by simp)

section Pair

/-- Two peers on one empty file. -/
def pair : Peers Bool where
  dirPath b := [.rootDir, .normal (cond b "t" "s")]
  loaded b := oneFile (cond b "t" "s") (cond b 2 1) noChars [[root]] 0 []
  replica b := oneFile_replica _ _
  routes b := by cases b <;> exact @routes_single _ _ _ ([], 0) (oneFile_replica _ _) rfl rfl rfl
  twins _ _ := twins_single rfl rfl (r := [.normal "f"]) rfl rfl rfl
  distinct := by decide

def typeA : Edit := .add ⟨[.rootDir, .normal "s", .normal "f"], some 0, some 0, none, 'a', 1, 0⟩

def opA : NetworkOp := .add ⟨[.normal "f"], ⟨1, 1, .new 'a' 0 0⟩, 0⟩

def stateA : List (PathBuf × List (Identity × CrdtRelation)) :=
  [([.normal "f"], [((1, 1), .new 'a' 0 0)])]

def noteA (dir : String) : SharFile :=
  ⟨[.rootDir, .normal dir, .normal "f"], noChars.insert (1, 1) (.new 'a' 0 0), [[root, (1, 1)]]⟩

structure BothHaveA (σ : Session Bool) : Prop where
  author : At (σ.queue false) [.normal "f"] ([], 0) (noteA "s")
  reader : At (σ.queue true) [.normal "f"] ([], 0) (noteA "t")
  issued : issued (σ.queue false) = [opA] ∧ issued (σ.queue true) = []
  received : σ.received false = [] ∧ σ.received true = [opA]
  answered : σ.answered = [opA]

theorem typeA_named : Named pair pair.start (.edit false typeA) :=
  ⟨([], 0), _, rfl, rfl, rfl⟩

variable {G : Session Bool → Event Bool → Prop}

theorem pair_run (htype : G pair.start (.edit false typeA))
    (hanswer : ∀ σ, G σ (.answer false stateA)) (hreceive : ∀ σ, G σ (.receive true opA)) :
    ∃ σ σ', Run Transition G pair.start [.edit false typeA] σ ∧
      Run Transition G σ [.answer false stateA, .receive true opA] σ' ∧
      Run Transition G pair.start [.edit false typeA, .answer false stateA, .receive true opA] σ' ∧
      At (σ.queue false) [.normal "f"] ([], 0) (noteA "s") ∧
      Enumerates (σ.queue false).fullState stateA ∧ BothHaveA σ' := by
  have hedit : ∃ q l, typeA.call.apply (pair.loaded false) = some q ∧
      q = { oneFile "s" 1 (noteA "s").characters [[root, (1, 1)]] 1 l with
        tagIdentities := Finmap.insert 1 (1, 1) ∅ } ∧ issued q = [opA] := ⟨_, _, rfl, rfl, rfl⟩
  have hheard : ∃ q l, deliver (pair.loaded true) opA = some q ∧
      q = oneFile "t" 2 (noteA "t").characters [[root, (1, 1)]] 1 l ∧ issued q = [] :=
    ⟨_, _, rfl, rfl, rfl⟩
  obtain ⟨q, l, hq, he, hissued⟩ := hedit
  obtain ⟨q', l', hq', he', hsilent⟩ := hheard
  have hentries : ((noteA "s").characters.erase root).entries =
      [((1, 1), CrdtRelation.new 'a' 0 0)].map entry := by decide
  have hstate : Enumerates q.fullState stateA := by
    subst he
    exact .cons ⟨rfl, hentries⟩ .nil
  let σ₁ : Session Bool := ⟨Function.update pair.loaded false q, fun _ => [], []⟩
  let σ₂ : Session Bool := ⟨σ₁.queue, fun _ => [], [opA]⟩
  have h₁ : Transition pair.start (.edit false typeA) σ₁ := .edit hq
  have h₂ : Transition σ₁ (.answer false stateA) σ₂ := .answer (σ := σ₁) (j := false) hstate
  have h₃ := @Transition.receive _ _ σ₂ true opA q' (Or.inl (List.mem_singleton.mpr rfl)) hq'
  have htail := Run.cons (hanswer σ₁) h₂ (.cons (hreceive σ₂) h₃ (.nil _))
  refine ⟨σ₁, _, .cons htype h₁ (.nil _), htail, .cons htype h₁ htail, ⟨?_, ?_⟩, hstate,
    ⟨⟨?_, ?_⟩, ⟨?_, ?_⟩, ⟨hissued, hsilent⟩, ⟨rfl, rfl⟩, rfl⟩⟩
  all_goals first | (subst he; rfl) | (subst he'; rfl)

end Pair

end PeerSession
