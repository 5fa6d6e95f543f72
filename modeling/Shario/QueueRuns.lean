import Shario.IdeSteps
import Shario.PathRouting

/-! Runs of all four entry points of the queue. -/
namespace QueueRuns

open CrdtTypes FileTree FilePlacement FileSafety DirectoryTree ShareQueue WorklistDrain TreeCalls
  QueueSteps IdeSteps

inductive QueueCall where
  | network (item : NetworkOp)
  | ideAdd (op : IdeAdd)
  | ideRemove (op : Remove)

def QueueCall.apply (q : SharQueue) : QueueCall → Option SharQueue
  | .network item => deliver q item
  | .ideAdd op => q.addIdeOperation op
  | .ideRemove op => q.removeIdeOperation op

structure Idle (q : SharQueue) : Prop where
  network : q.networkWorklist = []
  ide : q.ideWorklist = []

/-- What `remove_ide_operation` does. -/
inductive IdeRemoved (q : SharQueue) (op : Remove) : SharQueue → Prop where
  | rootRemove : op.identity = root → IdeRemoved q op q
  | fallen {pos t} : op.identity ≠ root →
      TreeRemoved q.tree op.filePath op.identity (.ok (some pos)) t →
      IdeRemoved q op ((withTree q t).fire
        (.ideRemove { op with filePath := (withTree q t).toRelativePath op.filePath }))
  | again {t} : op.identity ≠ root → TreeRemoved q.tree op.filePath op.identity (.ok none) t →
      IdeRemoved q op (withTree q t)
  | early {e t} : op.identity ≠ root → TreeRemoved q.tree op.filePath op.identity (.error e) t →
      IdeRemoved q op (waiting (withTree q t) op.identity (.remove op))

theorem removeIde_cases {q : SharQueue} (hs : AllFiles Sound q.tree) (op : Remove) :
    (∃ q', q.removeIdeOperation op = some q' ∧ IdeRemoved q op q') ∨
    (q.removeIdeOperation op = none ∧ op.identity ≠ root ∧
      BreakOnTop q.tree op.filePath op.identity) := by
  by_cases hr : op.identity = root
  · exact Or.inl ⟨q, by
      simp [SharQueue.removeIdeOperation, SharQueue.removeOperation, hr], .rootRemove hr⟩
  rcases tree_remove_cases hs op.filePath op.row hr with ⟨o, t, he, ht⟩ | ⟨he, hb⟩
  · apply Or.inl
    simp only [SharQueue.removeIdeOperation, SharQueue.removeOperation, hr, if_false, he,
      Option.bind_eq_bind, Option.bind_some]
    cases o with
    | error e => exact ⟨_, rfl, .early hr ht⟩
    | ok pos =>
      cases pos with
      | none => exact ⟨_, rfl, .again hr ht⟩
      | some pos => exact ⟨_, rfl, .fallen hr ht⟩
  · refine Or.inr ⟨?_, hr, hb⟩
    simp [SharQueue.removeIdeOperation, SharQueue.removeOperation, hr, he]

section Frame

variable {q q' : SharQueue} {item : NetworkOp} {op : IdeAdd} {r : Remove}

@[simp] theorem queueNetwork_ideWorklist (q : SharQueue) (x : Identity) :
    (q.queueNetworkBacklog x).ideWorklist = q.ideWorklist := by
  unfold SharQueue.queueNetworkBacklog
  split <;> rfl

@[simp] theorem queueIde_networkWorklist (q : SharQueue) (x : Identity) :
    (q.queueIdeBacklog x).networkWorklist = q.networkWorklist := by
  unfold SharQueue.queueIdeBacklog
  split <;> rfl

@[simp] theorem enlisted_networkWorklist (q : SharQueue) (op : IdeAdd) (n : ℕ) :
    (enlisted q op n).networkWorklist = q.networkWorklist := by
  unfold enlisted SharQueue.queueTagBacklog
  split <;> rfl

theorem retried_ide (h : Retried q item q') : q'.ideWorklist = q.ideWorklist := by
  cases h with
  | landed _ _ => exact queueNetwork_ideWorklist _ _
  | rootAdd _ => rfl
  | repeated _ _ => rfl
  | early _ _ => rfl
  | rootRemove _ => rfl
  | fallen _ _ => rfl
  | again _ _ => rfl
  | earlyRemove _ _ => rfl

theorem retried_ideSide (h : Retried q item q') : q'.ideBacklog = q.ideBacklog ∧
    q'.ideTagBacklog = q.ideTagBacklog ∧ q'.tagIdentities = q.tagIdentities := by
  cases h with
  | landed _ _ =>
    unfold SharQueue.queueNetworkBacklog
    split <;> exact ⟨rfl, rfl, rfl⟩
  | rootAdd _ => exact ⟨rfl, rfl, rfl⟩
  | repeated _ _ => exact ⟨rfl, rfl, rfl⟩
  | early _ _ => exact ⟨rfl, rfl, rfl⟩
  | rootRemove _ => exact ⟨rfl, rfl, rfl⟩
  | fallen _ _ => exact ⟨rfl, rfl, rfl⟩
  | again _ _ => exact ⟨rfl, rfl, rfl⟩
  | earlyRemove _ _ => exact ⟨rfl, rfl, rfl⟩

theorem retriedIde_network (h : RetriedIde q op q') :
    q'.networkWorklist = q.networkWorklist := by
  cases h with
  | held hh => cases hh <;> rfl
  | landed _ => exact queueIde_networkWorklist _ _

end Frame

section Trees

variable {P : SharDirectory → Prop} (hsound : ∀ t, P t → AllFiles Sound t)
  (hadd : ∀ t path c o u, P t → TreeAdded t path c o u → P u)
  (hremove : ∀ t path x o u, P t → x ≠ root → TreeRemoved t path x o u → P u)

include hadd hremove

theorem retried_keeps {q q' : SharQueue} {item : NetworkOp} (hP : P q.tree)
    (h : Retried q item q') : P q'.tree := by
  cases h with
  | rootAdd _ => exact hP
  | landed _ ht => rw [queueNetwork_tree]; exact hadd _ _ _ _ _ hP ht
  | repeated _ ht => exact hadd _ _ _ _ _ hP ht
  | early _ ht => exact hadd _ _ _ _ _ hP ht
  | rootRemove _ => exact hP
  | fallen hr ht => exact hremove _ _ _ _ _ hP hr ht
  | again hr ht => exact hremove _ _ _ _ _ hP hr ht
  | earlyRemove hr ht => exact hremove _ _ _ _ _ hP hr ht

omit hremove in
theorem retriedIde_keeps {q q' : SharQueue} {op : IdeAdd} (hP : P q.tree)
    (h : RetriedIde q op q') : P q'.tree := by
  cases h with
  | held hh =>
    cases hh with
    | untagged _ _ => exact hP
    | repeated _ _ ht => exact hadd _ _ _ _ _ hP ht
    | early _ _ ht => exact hadd _ _ _ _ _ hP ht
  | landed hl =>
    rw [fire_tree, queueIde_tree]
    exact hadd _ _ _ _ _ hP hl.added

include hsound

/-- What the calls on the tree keep, every call of the queue keeps. -/
theorem call_keeps {q q' : SharQueue} {call : QueueCall} (hidle : Idle q) (hP : P q.tree)
    (h : call.apply q = some q') : P q'.tree ∧ Idle q' := by
  cases call with
  | network item =>
    obtain ⟨⟨hJ, hw⟩, hn⟩ := deliver_keeps (J := fun p => P p.tree ∧ p.ideWorklist = [])
      (fun p hp => hsound _ hp.1) (fun p i p₁ p₂ hp hpop _ hr => by
        obtain ⟨rest, _, rfl⟩ := pop_eq hpop
        exact ⟨retried_keeps hadd hremove (q := { p with networkWorklist := rest }) hp.1 hr,
          (retried_ide hr).trans hp.2⟩) hidle.network ⟨hP, hidle.ide⟩ h
    exact ⟨hJ, hn, hw⟩
  | ideAdd op =>
    obtain ⟨⟨hJ, hw⟩, hn⟩ := addIde_keeps (J := fun p => P p.tree ∧ p.networkWorklist = [])
      (fun p hp => hsound _ hp.1) (fun _ _ hp => hp) (fun n q' _ hr => by
        refine ⟨retriedIde_keeps hadd ?_ hr, (retriedIde_network hr).trans ?_⟩
        · rw [enlisted_tree]
          exact hP
        · rw [enlisted_networkWorklist]
          exact hidle.network) (fun p i p₁ p₂ hp hpop _ hr => by
        obtain ⟨rest, _, rfl⟩ := popIde_eq hpop
        exact ⟨retriedIde_keeps hadd (q := { p with ideWorklist := rest }) hp.1 hr,
          (retriedIde_network hr).trans hp.2⟩) (hsound _ hP) h
    exact ⟨hJ, hw, hn⟩
  | ideRemove op =>
    rcases removeIde_cases (hsound _ hP) op with ⟨q₁, he, hr⟩ | ⟨he, _⟩
    · have hq : q₁ = q' := Option.some.inj (he.symm.trans h)
      subst hq
      cases hr with
      | rootRemove _ => exact ⟨hP, hidle⟩
      | fallen hx ht => exact ⟨hremove _ _ _ _ _ hP hx ht, hidle.network, hidle.ide⟩
      | again hx ht => exact ⟨hremove _ _ _ _ _ hP hx ht, hidle.network, hidle.ide⟩
      | early hx ht => exact ⟨hremove _ _ _ _ _ hP hx ht, hidle.network, hidle.ide⟩
    · exact absurd (he.symm.trans h) (by simp)

theorem run_keeps {q q' : SharQueue} {calls : List QueueCall} (hidle : Idle q) (hP : P q.tree)
    (h : calls.foldlM QueueCall.apply q = some q') : P q'.tree ∧ Idle q' := by
  induction calls generalizing q with
  | nil =>
    cases h
    exact ⟨hP, hidle⟩
  | cons call calls ih =>
    rw [List.foldlM_cons, Option.bind_eq_bind, Option.bind_eq_some_iff] at h
    obtain ⟨q₁, hq₁, h⟩ := h
    obtain ⟨hP₁, hidle₁⟩ := call_keeps hsound hadd hremove hidle hP hq₁
    exact ih hidle₁ hP₁ h

end Trees

theorem loaded_idle {dirPath : PathBuf} {read : Except String (List FsEntry)} {peer : ℕ}
    {q : SharQueue} (h : SharQueue.new dirPath read peer = some (.ok q)) : Idle q := by
  obtain ⟨_, _, hq⟩ := PathRouting.new_tree h
  rw [hq]
  exact ⟨rfl, rfl⟩

def emptyEntries : Except String (List FsEntry) := .ok [.file "f" (.ok [])]

theorem emptyEntries_distinct : PathRouting.DistinctNames emptyEntries :=
  ⟨by decide, trivial, trivial⟩

def noChars : Characters := (emptyFile []).characters

/-- A queue on the directory `dir` with the one file `f`. -/
def oneFile (dir : String) (peer : ℕ) (m : Characters) (p : Projection) (counter : ℕ)
    (fired : List Callback) : SharQueue :=
  ⟨∅, ∅, ∅, [], [], ∅, peer,
    .mk [.rootDir, .normal dir] [] [⟨[.rootDir, .normal dir, .normal "f"], m, p⟩], counter, fired⟩

theorem oneFile_replica (dir : String) (peer : ℕ) : PathRouting.Replica [.rootDir, .normal dir]
    (oneFile dir peer noChars [[root]] 0 []) :=
  ⟨rfl, rfl, emptyEntries, peer, emptyEntries_distinct, rfl⟩

end QueueRuns
