import Shario.Sessions

/-! The two drain loops on any queue. Of the tree they need only that its calls do not panic:
they end, and every operation that was waiting is applied, waits again or names the root. -/
namespace LosslessDrains

open CrdtTypes FileTree DirectoryTree ShareQueue WorklistDrain QueueSteps NetworkDelivery IdeSteps
  QueueRuns Sessions

/-- What becomes of the operation of a round. -/
inductive Fate where
  | consumed
  | deferred
  | discarded
  deriving DecidableEq, Repr

def Fate.of : Outcome → Fate
  | .ok _ => .consumed
  | .error _ => .deferred

def treeCall (q : SharQueue) : NetworkOp → Option (Outcome × SharDirectory)
  | .add op => q.tree.addCrdt (localAdd q op).filePath op.row op.crdt
  | .remove op => q.tree.removeCrdt (localRemove q op).filePath op.row op.identity

/-- Operations on the root make no call. -/
def fate (q : SharQueue) (item : NetworkOp) : Option Fate :=
  if subject item = root then some .discarded else (treeCall q item).map fun r => .of r.1

/-- An IDE add whose parent tag is unknown makes no call and waits for the tag. -/
def ideFate (q : SharQueue) (op : IdeAdd) : Option Fate :=
  match q.ideParent op with
  | none => op.parentTag.map fun _ => .deferred
  | some parent => (q.tagIdentities.lookup op.tag).bind fun x =>
      (q.tree.addCrdt op.filePath op.lineHint (ideCrdt op x parent)).map fun r => .of r.1

/-- No tree call of the network loop panics. -/
def CallsReturn (q : SharQueue) : Prop :=
  ∀ p p₁ item, NetworkDraining q p → p.popNetwork = some (item, p₁) → subject item ≠ root →
    treeCall p₁ item ≠ none

/-- No tree call of the IDE loop panics. -/
def IdeCallsReturn (q : SharQueue) : Prop :=
  ∀ p p₁ op parent x, IdeDraining q p → p.popIde = some (op, p₁) → p₁.ideParent op = some parent →
    p₁.tagIdentities.lookup op.tag = some x →
    p₁.tree.addCrdt op.filePath op.lineHint (ideCrdt op x parent) ≠ none

def withFate {α : Type} (fate : SharQueue → α → Option Fate) (f : Fate)
    (log : List (SharQueue × α)) : Multiset α :=
  ↑((log.filter fun e => fate e.1 e.2 = some f).map Prod.snd)

/-- `b` is `a`, its path resolved any number of times: each retry resolves it anew. -/
def Again (q : SharQueue) (a b : NetworkOp) : Prop := ∃ k, (localItem q)^[k] a = b

def pending (q : SharQueue) : Multiset NetworkOp :=
  (q.networkWorklist : Multiset NetworkOp) + contents q.networkBacklog

def idePending (q : SharQueue) : Multiset IdeAdd :=
  (q.ideWorklist : Multiset IdeAdd) + (contents q.ideBacklog + contents q.ideTagBacklog)

/-- Each operation that was pending in `q` is one that waits in `q'`, or was consumed by one
call, or was discarded. -/
structure NetworkDrained (q : SharQueue) (log : List (SharQueue × NetworkOp)) (q' : SharQueue) :
    Prop where
  rounds : Traced SharQueue.popNetwork SharQueue.retryNetwork q log q'
  emptied : q'.networkWorklist = []
  accounted : Multiset.Rel (Again q) (pending q)
    (contents q'.networkBacklog + withFate fate .consumed log + withFate fate .discarded log)
  ide : q'.ideWorklist = q.ideWorklist ∧ q'.ideBacklog = q.ideBacklog ∧
    q'.ideTagBacklog = q.ideTagBacklog

structure IdeDrained (q : SharQueue) (log : List (SharQueue × IdeAdd)) (q' : SharQueue) :
    Prop where
  rounds : Traced SharQueue.popIde SharQueue.retryIde q log q'
  emptied : q'.ideWorklist = []
  accounted : idePending q =
    contents q'.ideBacklog + contents q'.ideTagBacklog + withFate ideFate .consumed log
  network : q'.networkWorklist = q.networkWorklist ∧ q'.networkBacklog = q.networkBacklog

section Books

variable {α : Type} {fate : SharQueue → α → Option Fate} {f g : Fate}

theorem withFate_cons (p : SharQueue) (a : α) (log : List (SharQueue × α)) :
    withFate fate f ((p, a) :: log) =
      (if fate p a = some f then {a} else 0) + withFate fate f log := by
  unfold withFate
  by_cases h : fate p a = some f
  · rw [List.filter_cons_of_pos (by simpa using h), if_pos h]
    rfl
  · rw [List.filter_cons_of_neg (by simpa using h), if_neg h, zero_add]

theorem sum_withFate (log : List (SharQueue × α)) :
    (log.map fun e => if fate e.1 e.2 = some f then ({e.2} : Multiset α) else 0).sum =
      withFate fate f log := by
  induction log with
  | nil => rfl
  | cons e log ih => rw [List.map_cons, List.sum_cons, ih, withFate_cons]

end Books

section Tree

variable {d t : SharDirectory} {path : PathBuf} {n : ℕ} {c : CRDT} {x : Identity} {o : Outcome}

theorem add_dirName (h : d.addCrdt path n c = some (o, t)) : t.dirName = d.dirName := by
  unfold SharDirectory.addCrdt at h
  cases hr : d.findFile path with
  | none =>
    rw [hr, Option.some.injEq, Prod.mk.injEq] at h
    rw [h.2]
  | some ref =>
    simp only [hr, Option.bind_eq_bind, Option.bind_eq_some_iff, Option.some.injEq,
      Prod.mk.injEq] at h
    obtain ⟨_, _, _, _, _, rfl⟩ := h
    exact SharDirectory.dirName_setFile

theorem remove_dirName (h : d.removeCrdt path n x = some (o, t)) : t.dirName = d.dirName := by
  unfold SharDirectory.removeCrdt at h
  cases hr : d.findFile path with
  | none =>
    rw [hr, Option.some.injEq, Prod.mk.injEq] at h
    rw [h.2]
  | some ref =>
    simp only [hr, Option.bind_eq_bind, Option.bind_eq_some_iff, Option.some.injEq,
      Prod.mk.injEq] at h
    obtain ⟨_, _, _, _, _, rfl⟩ := h
    exact SharDirectory.dirName_setFile

end Tree

section Rounds

variable {q p p₁ p₂ : SharQueue} {item : NetworkOp} {op : IdeAdd} {f : Fate}

/-- The same root, and the same IDE operations waiting. -/
structure Beside (q q' : SharQueue) : Prop where
  root : q'.root = q.root
  ide : q'.ideWorklist = q.ideWorklist ∧ q'.ideBacklog = q.ideBacklog ∧
    q'.ideTagBacklog = q.ideTagBacklog

theorem beside_refl (q : SharQueue) : Beside q q := ⟨rfl, rfl, rfl, rfl⟩

theorem Beside.trans {q₁ q₂ : SharQueue} (h : Beside q q₁) (h' : Beside q₁ q₂) : Beside q q₂ :=
  ⟨h'.root.trans h.root, h'.ide.1.trans h.ide.1, h'.ide.2.1.trans h.ide.2.1,
    h'.ide.2.2.trans h.ide.2.2⟩

theorem beside_woken (q : SharQueue) (x : Identity) : Beside q (q.queueNetworkBacklog x) := by
  unfold SharQueue.queueNetworkBacklog
  split <;> exact ⟨rfl, rfl, rfl, rfl⟩

/-- What the retry of a network operation does to what is pending, for each fate. -/
inductive Moved (q : SharQueue) (item : NetworkOp) : Fate → SharQueue → Prop where
  | settled {f q'} : f ≠ .deferred → pending q' = pending q → Moved q item f q'
  | deferred {q'} : q'.networkWorklist = q.networkWorklist →
      contents q'.networkBacklog = localItem q item ::ₘ contents q.networkBacklog →
      Moved q item .deferred q'

theorem retry_moves (h : fate q item = some f) :
    ∃ q', q.retryNetwork item = some q' ∧ Beside q q' ∧ Moved q item f q' := by
  unfold fate at h
  by_cases hr : subject item = root
  · rw [if_pos hr, Option.some.injEq] at h
    subst h
    cases item with
    | add op =>
      have hr' : op.crdt.identity = root := hr
      refine ⟨counted q op.crdt.id, ?_, ⟨rfl, rfl, rfl, rfl⟩, .settled (by simp) rfl⟩
      simp [SharQueue.retryNetwork, SharQueue.addNetworkOperationInner, hr', counted]
    | remove op =>
      have hr' : (localRemove q op).identity = root := hr
      refine ⟨q, ?_, beside_refl q, .settled (by simp) rfl⟩
      simp only [localRemove] at hr'
      simp [SharQueue.retryNetwork, SharQueue.removeNetworkOperation, SharQueue.removeOperation, hr']
  rw [if_neg hr, Option.map_eq_some_iff] at h
  obtain ⟨⟨o, t⟩, hcall, rfl⟩ := h
  cases item with
  | add op =>
    have hr' : ¬ op.crdt.identity = root := hr
    have he : q.tree.addCrdt (q.toLocalPath op.filePath) op.row op.crdt = some (o, t) := hcall
    have ht := add_dirName he
    simp only [SharQueue.retryNetwork, SharQueue.addNetworkOperationInner, hr', if_false, he,
      Option.bind_eq_bind, Option.bind_some]
    cases o with
    | error e =>
      exact ⟨_, rfl, ⟨ht, rfl, rfl, rfl⟩, .deferred rfl contents_push⟩
    | ok pos =>
      cases pos with
      | none => exact ⟨_, rfl, ⟨ht, rfl, rfl, rfl⟩, .settled (by simp [Fate.of]) rfl⟩
      | some pos =>
        refine ⟨_, rfl, Beside.trans ?_ (beside_woken _ _), .settled (by simp [Fate.of])
          (queueNetwork_pending _ _)⟩
        exact ⟨ht, rfl, rfl, rfl⟩
  | remove op =>
    have hr' : ¬ (localRemove q op).identity = root := hr
    have he : q.tree.removeCrdt (localRemove q op).filePath (localRemove q op).row
      (localRemove q op).identity = some (o, t) := hcall
    have ht := remove_dirName he
    simp only [localRemove] at hr' he
    simp only [SharQueue.retryNetwork, SharQueue.removeNetworkOperation,
      SharQueue.removeOperation, hr', if_false, he, Option.bind_eq_bind, Option.bind_some]
    cases o with
    | error e => exact ⟨_, rfl, ⟨ht, rfl, rfl, rfl⟩, .deferred rfl contents_push⟩
    | ok pos =>
      cases pos with
      | none => exact ⟨_, rfl, ⟨ht, rfl, rfl, rfl⟩, .settled (by simp [Fate.of]) rfl⟩
      | some pos => exact ⟨_, rfl, ⟨ht, rfl, rfl, rfl⟩, .settled (by simp [Fate.of]) rfl⟩

def book {α : Type} (fate : SharQueue → α → Option Fate) (p : SharQueue) (a : α) : Multiset α :=
  (if fate p a = some .consumed then {a} else 0) + (if fate p a = some .discarded then {a} else 0)

theorem sum_book {α : Type} (fate : SharQueue → α → Option Fate) (log : List (SharQueue × α)) :
    (log.map fun e => book fate e.1 e.2).sum =
      withFate fate .consumed log + withFate fate .discarded log := by
  rw [← sum_withFate, ← sum_withFate]
  exact List.sum_map_add

instance again_trans (q : SharQueue) : IsTrans NetworkOp (Again q) where
  trans := by
    rintro a b c ⟨k, rfl⟩ ⟨m, rfl⟩
    exact ⟨m + k, Function.iterate_add_apply _ m k a⟩

theorem again_refl (q : SharQueue) (a : NetworkOp) : Again q a a := ⟨0, rfl⟩

theorem localItem_root (h : p.root = q.root) (item : NetworkOp) :
    localItem p item = localItem q item := by
  cases item <;> simp only [localItem, localAdd, localRemove, SharQueue.toLocalPath, h]

theorem popped (h : q.popNetwork = some (item, p)) :
    pending q = item ::ₘ pending p ∧ Beside q p := by
  obtain ⟨rest, hl, rfl⟩ := pop_eq h
  refine ⟨?_, rfl, rfl, rfl, rfl⟩
  rw [pending, hl, ← Multiset.cons_coe, Multiset.cons_add]
  rfl

theorem moved_accounted (hroot : p₁.root = q.root) (hpop : p.popNetwork = some (item, p₁))
    (hf : fate p₁ item = some f) (hm : Moved p₁ item f p₂) :
    Multiset.Rel (Again q) (pending p) (pending p₂ + book fate p₁ item) := by
  have hrefl : ∀ m : Multiset NetworkOp, Multiset.Rel (Again q) m m :=
    fun m => Multiset.rel_refl_of_refl_on fun a _ => again_refl q a
  rw [(popped hpop).1, book, hf]
  cases hm with
  | settled hne hp =>
    have hbook : ((if some f = some Fate.consumed then {item} else 0) +
        (if some f = some Fate.discarded then {item} else 0) : Multiset NetworkOp) = {item} := by
      cases f with
      | consumed => rfl
      | discarded => rfl
      | deferred => exact absurd rfl hne
    rw [hbook, hp, Multiset.add_comm, Multiset.singleton_add]
    exact hrefl _
  | deferred hw hb =>
    have hp : pending p₂ = localItem p₁ item ::ₘ pending p₁ := by
      rw [pending, pending, hw, hb, Multiset.add_cons]
    rw [hp, localItem_root hroot]
    simpa using Multiset.Rel.cons ⟨1, rfl⟩ (hrefl _)

theorem moved_rounds (hpop : p.popNetwork = some (item, p₁)) (hm : Moved p₁ item f p₂) :
    p₂.networkRounds < p.networkRounds := by
  obtain ⟨rest, hl, rfl⟩ := pop_eq hpop
  rw [networkRounds_eq, networkRounds_eq, hl]
  cases hm with
  | settled _ hp => exact rounds_settled hp
  | deferred hw hb =>
    rw [hw, hb]
    exact rounds_deferred

def InLoop (q p : SharQueue) : Prop := NetworkDraining q p ∧ Beside q p

theorem loop_round (hq : CallsReturn q) (h : InLoop q p) (hpop : p.popNetwork = some (item, p₁)) :
    ∃ f p₂, fate p₁ item = some f ∧ p₁.retryNetwork item = some p₂ ∧ InLoop q p₂ ∧
      Moved p₁ item f p₂ := by
  have hfate : ∃ f, fate p₁ item = some f := by
    by_cases hr : subject item = root
    · exact ⟨_, if_pos hr⟩
    · obtain ⟨r, hcall⟩ := Option.ne_none_iff_exists'.mp (hq p p₁ item h.1 hpop hr)
      exact ⟨.of r.1, by rw [fate, if_neg hr, hcall]; rfl⟩
  obtain ⟨f, hf⟩ := hfate
  obtain ⟨p₂, he, hbeside, hm⟩ := retry_moves hf
  exact ⟨f, p₂, hf, he, ⟨h.1.trans (.step hpop he (.refl p₂)),
    (h.2.trans (popped hpop).2).trans hbeside⟩, hm⟩

theorem loop_accounted (hq : CallsReturn q) (h : InLoop q p) (hpop : p.popNetwork = some (item, p₁))
    (he : p₁.retryNetwork item = some p₂) :
    InLoop q p₂ ∧ Multiset.Rel (Again q) (pending p) (pending p₂ + book fate p₁ item) := by
  obtain ⟨f, p₂', hf, he', hp₂, hm⟩ := loop_round hq h hpop
  obtain rfl : p₂' = p₂ := Option.some.inj (he'.symm.trans he)
  exact ⟨hp₂, moved_accounted ((popped hpop).2.root.trans h.2.root) hpop hf hm⟩

theorem network_drained (hq : CallsReturn q) :
    ∃ q' log, q.drainNetworkWorklist = some q' ∧ NetworkDrained q log q' := by
  have hstart : InLoop q q := ⟨.refl q, beside_refl q⟩
  have hround : ∀ p item p₁, InLoop q p → p.popNetwork = some (item, p₁) →
      ∃ p₂, p₁.retryNetwork item = some p₂ ∧ InLoop q p₂ ∧ p₂.networkRounds < p.networkRounds := by
    intro p item p₁ h hpop
    obtain ⟨f, p₂, _, he, hp₂, hm⟩ := loop_round hq h hpop
    exact ⟨p₂, he, hp₂, moved_rounds hpop hm⟩
  obtain ⟨q', hq', _, hpop⟩ := drain_total hround hstart (Nat.lt_succ_self _)
  obtain ⟨log, hlog⟩ := drain_traced hq'
  obtain ⟨hloop, haccounted⟩ := hlog.accounts (again_refl q)
    (fun _ _ _ _ => loop_accounted hq) hstart
  have hempty : q'.networkWorklist = [] := pop_none hpop
  refine ⟨q', log, hq', hlog, hempty, ?_, hloop.2.ide⟩
  rwa [sum_book, pending, pending, hempty, Multiset.coe_nil, Multiset.zero_add,
    ← Multiset.add_assoc] at haccounted

end Rounds

section IdeRounds

variable {q p p₁ p₂ : SharQueue} {op : IdeAdd} {f : Fate}

/-- Each waiting add names a parent, and its own tag is registered. -/
def Registered (q : SharQueue) : Prop :=
  ∀ op ∈ idePending q, NamesParent op ∧ ∃ x, q.tagIdentities.lookup op.tag = some x

/-- The same tags, and the same network operations waiting. -/
structure BesideIde (q q' : SharQueue) : Prop where
  tags : q'.tagIdentities = q.tagIdentities
  network : q'.networkWorklist = q.networkWorklist ∧ q'.networkBacklog = q.networkBacklog

theorem BesideIde.trans {q₁ q₂ : SharQueue} (h : BesideIde q q₁) (h' : BesideIde q₁ q₂) :
    BesideIde q q₂ :=
  ⟨h'.tags.trans h.tags, h'.network.1.trans h.network.1, h'.network.2.trans h.network.2⟩

theorem besideIde_woken (q : SharQueue) (x : Identity) : BesideIde q (q.queueIdeBacklog x) := by
  unfold SharQueue.queueIdeBacklog
  split <;> exact ⟨rfl, rfl, rfl⟩

inductive MovedIde (q : SharQueue) (op : IdeAdd) : Fate → SharQueue → Prop where
  | settled {q'} : idePending q' = idePending q → MovedIde q op .consumed q'
  | deferred {q'} : q'.ideWorklist = q.ideWorklist →
      contents q'.ideBacklog + contents q'.ideTagBacklog =
        op ::ₘ (contents q.ideBacklog + contents q.ideTagBacklog) → MovedIde q op .deferred q'

theorem retryIde_moves (h : ideFate q op = some f) :
    ∃ q', q.retryIde op = some q' ∧ BesideIde q q' ∧ MovedIde q op f q' := by
  unfold ideFate at h
  unfold SharQueue.retryIde SharQueue.addIdeOperationInner
  cases hp : q.ideParent op with
  | none =>
    simp only [hp, Option.map_eq_some_iff] at h
    obtain ⟨tag, ht, rfl⟩ := h
    refine ⟨waitingTag q tag op, by simp [ht, waitingTag], ⟨rfl, rfl, rfl⟩, .deferred rfl ?_⟩
    rw [waitingTag, contents_push, Multiset.add_cons]
  | some parent =>
    simp only [hp, Option.bind_eq_some_iff, Option.map_eq_some_iff] at h
    obtain ⟨x, hx, ⟨o, t⟩, hcall, rfl⟩ := h
    have he : q.tree.addCrdt op.filePath op.lineHint
        ⟨x.1, x.2, .new op.val parent.1 parent.2⟩ = some (o, t) := hcall
    simp only [Option.bind_eq_bind, hx, Option.bind_some, he]
    cases o with
    | error e =>
      refine ⟨_, rfl, ⟨rfl, rfl, rfl⟩, .deferred rfl ?_⟩
      rw [contents_push, Multiset.cons_add]
    | ok pos =>
      cases pos with
      | none => exact ⟨_, rfl, ⟨rfl, rfl, rfl⟩, .settled rfl⟩
      | some pos =>
        have hwoken := besideIde_woken (withTree q t) x
        exact ⟨_, rfl, ⟨hwoken.tags, hwoken.network⟩, .settled (queueIde_pending (withTree q t) x)⟩

theorem poppedIde (h : q.popIde = some (op, p)) :
    idePending q = op ::ₘ idePending p ∧ BesideIde q p := by
  obtain ⟨rest, hl, rfl⟩ := popIde_eq h
  refine ⟨?_, rfl, rfl, rfl⟩
  rw [idePending, hl, ← Multiset.cons_coe, Multiset.cons_add]
  rfl

theorem movedIde_accounted (hpop : p.popIde = some (op, p₁)) (hf : ideFate p₁ op = some f)
    (hm : MovedIde p₁ op f p₂) :
    idePending p = idePending p₂ + if ideFate p₁ op = some .consumed then {op} else 0 := by
  rw [(poppedIde hpop).1, hf]
  cases hm with
  | settled hp => rw [if_pos rfl, hp, Multiset.add_comm, Multiset.singleton_add]
  | deferred hw hb =>
    rw [if_neg (by simp), Multiset.add_zero, idePending, idePending, hw, hb, Multiset.add_cons]

theorem movedIde_rounds (hpop : p.popIde = some (op, p₁)) (hm : MovedIde p₁ op f p₂) :
    p₂.ideRounds < p.ideRounds := by
  obtain ⟨rest, hl, rfl⟩ := popIde_eq hpop
  rw [ideRounds_eq, ideRounds_eq, hl]
  cases hm with
  | settled hp => exact rounds_settled hp
  | deferred hw hb =>
    rw [hw, hb]
    exact rounds_deferred

structure InIdeLoop (q p : SharQueue) : Prop where
  drains : IdeDraining q p
  beside : BesideIde q p
  waited : idePending p ≤ idePending q

theorem ideLoop_round (hr : Registered q) (hq : IdeCallsReturn q) (h : InIdeLoop q p)
    (hpop : p.popIde = some (op, p₁)) :
    ∃ f p₂, ideFate p₁ op = some f ∧ p₁.retryIde op = some p₂ ∧ InIdeLoop q p₂ ∧
      MovedIde p₁ op f p₂ := by
  obtain ⟨hpend, hbeside⟩ := poppedIde hpop
  have hin : op ∈ idePending q := Multiset.mem_of_le h.waited (by simp [hpend])
  obtain ⟨hnames, x, hx⟩ := hr op hin
  have htag : p₁.tagIdentities.lookup op.tag = some x := by
    rw [(h.beside.trans hbeside).tags]
    exact hx
  have hfate : ∃ f, ideFate p₁ op = some f := by
    unfold ideFate
    cases hp : p₁.ideParent op with
    | none =>
      obtain ⟨tag, ht⟩ := names_tag hnames hp
      exact ⟨.deferred, by simp [ht]⟩
    | some parent =>
      obtain ⟨r, hcall⟩ := Option.ne_none_iff_exists'.mp (hq p p₁ op parent x h.drains hpop hp htag)
      exact ⟨.of r.1, by simp [htag, hcall]⟩
  obtain ⟨f, hf⟩ := hfate
  obtain ⟨p₂, he, hbeside₂, hm⟩ := retryIde_moves hf
  refine ⟨f, p₂, hf, he, ⟨h.drains.trans (.step hpop he (.refl p₂)),
    (h.beside.trans hbeside).trans hbeside₂, le_trans ?_ h.waited⟩, hm⟩
  rw [movedIde_accounted hpop hf hm]
  exact Multiset.le_add_right _ _

theorem ideLoop_accounted (hr : Registered q) (hq : IdeCallsReturn q) (h : InIdeLoop q p)
    (hpop : p.popIde = some (op, p₁)) (he : p₁.retryIde op = some p₂) :
    InIdeLoop q p₂ ∧ Multiset.Rel Eq (idePending p)
      (idePending p₂ + if ideFate p₁ op = some .consumed then {op} else 0) := by
  obtain ⟨f, p₂', hf, he', hp₂, hm⟩ := ideLoop_round hr hq h hpop
  obtain rfl : p₂' = p₂ := Option.some.inj (he'.symm.trans he)
  exact ⟨hp₂, Multiset.rel_eq.mpr (movedIde_accounted hpop hf hm)⟩

theorem ide_drained (hr : Registered q) (hq : IdeCallsReturn q) :
    ∃ q' log, q.drainIdeWorklist = some q' ∧ IdeDrained q log q' := by
  have hstart : InIdeLoop q q := ⟨.refl q, ⟨rfl, rfl, rfl⟩, le_rfl⟩
  have hround : ∀ p op p₁, InIdeLoop q p → p.popIde = some (op, p₁) →
      ∃ p₂, p₁.retryIde op = some p₂ ∧ InIdeLoop q p₂ ∧ p₂.ideRounds < p.ideRounds := by
    intro p op p₁ h hpop
    obtain ⟨f, p₂, _, he, hp₂, hm⟩ := ideLoop_round hr hq h hpop
    exact ⟨p₂, he, hp₂, movedIde_rounds hpop hm⟩
  obtain ⟨q', hq', _, hpop⟩ := drain_total hround hstart (Nat.lt_succ_self _)
  obtain ⟨log, hlog⟩ := drain_traced hq'
  obtain ⟨hloop, haccounted⟩ := hlog.accounts (fun _ => rfl)
    (fun _ _ _ _ => ideLoop_accounted hr hq) hstart
  have hempty : q'.ideWorklist = [] := popIde_none hpop
  refine ⟨q', log, hq', hlog, hempty, ?_, hloop.beside.network⟩
  rw [Multiset.rel_eq, sum_withFate] at haccounted
  rw [haccounted, idePending, hempty, Multiset.coe_nil, Multiset.zero_add]

end IdeRounds

/-- Both loops end with an empty worklist, and lose no operation. -/
theorem drains_lose_nothing (q : SharQueue) :
    (CallsReturn q → ∃ q' log, q.drainNetworkWorklist = some q' ∧ NetworkDrained q log q') ∧
    (Registered q → IdeCallsReturn q →
      ∃ q' log, q.drainIdeWorklist = some q' ∧ IdeDrained q log q') :=
  ⟨network_drained, ide_drained⟩

section Check

variable {q : SharQueue} {fuel : ℕ}

theorem calls_return (h : everyRound SharQueue.popNetwork SharQueue.retryNetwork
    (fun p item => (fate p item).isSome) fuel q = true) : CallsReturn q := by
  intro p p₁ item hd hpop hr hnone
  have hfate := everyRound_draining h hd hpop
  simp [fate, hr, hnone] at hfate

theorem ide_calls_return (h : everyRound SharQueue.popIde SharQueue.retryIde
    (fun p op => (ideFate p op).isSome) fuel q = true) : IdeCallsReturn q := by
  intro p p₁ op parent x hd hpop hp hx hnone
  have hfate := everyRound_draining h hd hpop
  simp [ideFate, hp, hx, hnone] at hfate

end Check

def onFirst (id parentId parentPeer : ℕ) : NetworkOp :=
  .add ⟨[.normal "f"], ⟨id, 7, .new 'a' parentId parentPeer⟩, 0⟩

/-- A child before its parent, an add that is its own parent, two that wait for each other,
one for no file, and removals of the root and of a character that waits for its add. -/
def troubled : List NetworkOp :=
  [onFirst 2 1 7, onFirst 3 3 7, onFirst 4 5 7, onFirst 5 4 7,
    .add ⟨[.normal "g"], ⟨6, 7, .new 'a' 0 0⟩, 0⟩, .remove ⟨[.normal "f"], 0, 0, 0⟩,
    .remove ⟨[.normal "f"], 2, 7, 0⟩, onFirst 1 0 0, onFirst 1 0 0]

def ideOnFirst (parentId parentPeer parentTag : Option ℕ) (tag : ℕ) : IdeAdd :=
  ⟨[.rootDir, .normal "s", .normal "f"], parentId, parentPeer, parentTag, 'b', tag, 0⟩

/-- Both loops have work, and each of them wakes what waits. -/
def burdened : SharQueue :=
  let q := (((oneFile "s" 5 noChars [[root]] 7 []).confirmIde 1 8).confirmIde 2 9).confirmIde 3 10
  { q with
    networkWorklist := troubled
    networkBacklog := push ∅ (1, 7) (onFirst 8 1 7)
    ideWorklist := [ideOnFirst none none (some 2) 1, ideOnFirst none none (some 9) 3,
      ideOnFirst (some 0) (some 0) none 2]
    ideBacklog := push (push ∅ (9, 5) (ideOnFirst (some 9) (some 5) none 1)) (7, 5)
      (ideOnFirst (some 7) (some 5) none 3)
    ideTagBacklog := push ∅ 4 (ideOnFirst none none (some 4) 3) }

theorem drains_lose_nothing_burdened :
    (∃ q' log, burdened.drainNetworkWorklist = some q' ∧ NetworkDrained burdened log q') ∧
    (∃ q' log, burdened.drainIdeWorklist = some q' ∧ IdeDrained burdened log q') := by
  have hcalls : CallsReturn burdened :=
    calls_return (by decide +kernel : everyRound _ _ _ 20 _ = true)
  have hide : IdeCallsReturn burdened :=
    ide_calls_return (by decide +kernel : everyRound _ _ _ 20 _ = true)
  have hregistered : Registered burdened := by
    have hcheck : ∀ op ∈ idePending burdened,
        (op.parentId.isSome ∧ op.parentPeer.isSome ∨ op.parentTag.isSome) ∧
          (burdened.tagIdentities.lookup op.tag).isSome := by decide +kernel
    intro op hop
    simpa [NamesParent, Option.isSome_iff_exists] using hcheck op hop
  exact ⟨(drains_lose_nothing burdened).1 hcalls,
    (drains_lose_nothing burdened).2 hregistered hide⟩

end LosslessDrains
