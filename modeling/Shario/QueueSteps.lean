import Shario.ShareQueue
import Shario.TreeCalls

/-! The calls of the queue as sequences of single retries: what one retry does, that the
drain loops end, and the invariant rules for whole calls. -/
namespace QueueSteps

open CrdtTypes FileTree FilePlacement FileSafety DirectoryTree ShareQueue WorklistDrain TreeCalls

def localAdd (q : SharQueue) (op : NetworkAdd) : NetworkAdd :=
  { op with filePath := q.toLocalPath op.filePath }

def localRemove (q : SharQueue) (op : Remove) : Remove :=
  { op with filePath := q.toLocalPath op.filePath }

/-- The queue with its counter raised to the id of a received add. -/
def counted (q : SharQueue) (id : ℕ) : SharQueue := { q with counter := max q.counter id }

def withTree (q : SharQueue) (t : SharDirectory) : SharQueue := { q with tree := t }

def waiting (q : SharQueue) (k : Identity) (item : NetworkOp) : SharQueue :=
  { q with networkBacklog := push q.networkBacklog k item }

/-- What one network operation does to a queue, whose worklist is left to be drained. -/
inductive Retried (q : SharQueue) : NetworkOp → SharQueue → Prop where
  | rootAdd {op} : op.crdt.identity = root → Retried q (.add op) (counted q op.crdt.id)
  | landed {op pos t} : op.crdt.identity ≠ root →
      TreeAdded q.tree (localAdd q op).filePath op.crdt (.ok (some pos)) t →
      Retried q (.add op) ((((withTree (counted q op.crdt.id) t).fire (.networkAdd
        (SharQueue.rewriteParent t (localAdd q op).filePath pos (localAdd q op)))).queueNetworkBacklog
          op.crdt.identity))
  | repeated {op t} : op.crdt.identity ≠ root →
      TreeAdded q.tree (localAdd q op).filePath op.crdt (.ok none) t →
      Retried q (.add op) (withTree (counted q op.crdt.id) t)
  | early {op e t} : op.crdt.identity ≠ root →
      TreeAdded q.tree (localAdd q op).filePath op.crdt (.error e) t →
      Retried q (.add op) (waiting (withTree (counted q op.crdt.id) t) op.crdt.relation.parent
        (.add (localAdd q op)))
  | rootRemove {op} : op.identity = root → Retried q (.remove op) q
  | fallen {op pos t} : op.identity ≠ root →
      TreeRemoved q.tree (localRemove q op).filePath op.identity (.ok (some pos)) t →
      Retried q (.remove op) ((withTree q t).fire (.networkRemove (localRemove q op)))
  | again {op t} : op.identity ≠ root →
      TreeRemoved q.tree (localRemove q op).filePath op.identity (.ok none) t →
      Retried q (.remove op) (withTree q t)
  | earlyRemove {op e t} : op.identity ≠ root →
      TreeRemoved q.tree (localRemove q op).filePath op.identity (.error e) t →
      Retried q (.remove op) (waiting (withTree q t) op.identity (.remove (localRemove q op)))

/-- The removals that panic. -/
def Crashes (q : SharQueue) (item : NetworkOp) : Prop :=
  ∃ op, item = .remove op ∧ op.identity ≠ root ∧
    BreakOnTop q.tree (localRemove q op).filePath op.identity

theorem retry_cases {q : SharQueue} (hs : AllFiles Sound q.tree) (item : NetworkOp) :
    (∃ q', q.retryNetwork item = some q' ∧ Retried q item q') ∨
    (q.retryNetwork item = none ∧ Crashes q item) := by
  cases item with
  | add op =>
    apply Or.inl
    by_cases hr : op.crdt.identity = root
    · exact ⟨_, by
        simp [SharQueue.retryNetwork, SharQueue.addNetworkOperationInner, hr, counted],
        .rootAdd hr⟩
    obtain ⟨o, t, he, ha⟩ := tree_add_cases hs (localAdd q op).filePath op.row op.crdt
    have he' : q.tree.addCrdt (q.toLocalPath op.filePath) op.row op.crdt = some (o, t) := he
    simp only [SharQueue.retryNetwork, SharQueue.addNetworkOperationInner, hr, if_false, he',
      Option.bind_eq_bind, Option.bind_some]
    cases o with
    | error e => exact ⟨_, rfl, .early hr ha⟩
    | ok pos =>
      cases pos with
      | none => exact ⟨_, rfl, .repeated hr ha⟩
      | some pos => exact ⟨_, rfl, .landed hr ha⟩
  | remove op =>
    by_cases hr : op.identity = root
    · refine Or.inl ⟨q, ?_, .rootRemove hr⟩
      have hr' : (localRemove q op).identity = root := hr
      simp only [localRemove] at hr'
      simp [SharQueue.retryNetwork, SharQueue.removeNetworkOperation, SharQueue.removeOperation, hr']
    have hr' : (localRemove q op).identity ≠ root := hr
    rcases tree_remove_cases hs (localRemove q op).filePath op.row hr with ⟨o, t, he, ht⟩ | ⟨he, hb⟩
    · apply Or.inl
      have he' : q.tree.removeCrdt (localRemove q op).filePath (localRemove q op).row
          (localRemove q op).identity = some (o, t) := he
      simp only [localRemove] at hr' he'
      simp only [SharQueue.retryNetwork, SharQueue.removeNetworkOperation,
        SharQueue.removeOperation, hr', if_false, he', Option.bind_eq_bind, Option.bind_some]
      cases o with
      | error e => exact ⟨_, rfl, .earlyRemove hr ht⟩
      | ok pos =>
        cases pos with
        | none => exact ⟨_, rfl, .again hr ht⟩
        | some pos => exact ⟨_, rfl, .fallen hr ht⟩
    · refine Or.inr ⟨?_, op, rfl, hr, hb⟩
      have he' : q.tree.removeCrdt (localRemove q op).filePath (localRemove q op).row
          (localRemove q op).identity = none := he
      simp only [localRemove] at hr' he'
      simp [SharQueue.retryNetwork, SharQueue.removeNetworkOperation, SharQueue.removeOperation,
        hr', he']

section Fields

variable (q : SharQueue) (x : Identity) (item : NetworkOp) (t : SharDirectory) (n : ℕ)
  (c : Callback)

@[simp] theorem counted_tree : (counted q n).tree = q.tree := rfl
@[simp] theorem waiting_tree : (waiting q x item).tree = q.tree := rfl
@[simp] theorem fire_tree : (q.fire c).tree = q.tree := rfl
@[simp] theorem counted_backlog : (counted q n).networkBacklog = q.networkBacklog := rfl
@[simp] theorem withTree_backlog : (withTree q t).networkBacklog = q.networkBacklog := rfl
@[simp] theorem waiting_backlog :
    (waiting q x item).networkBacklog = push q.networkBacklog x item := rfl
@[simp] theorem fire_backlog : (q.fire c).networkBacklog = q.networkBacklog := rfl
@[simp] theorem counted_worklist : (counted q n).networkWorklist = q.networkWorklist := rfl
@[simp] theorem withTree_worklist : (withTree q t).networkWorklist = q.networkWorklist := rfl
@[simp] theorem waiting_worklist : (waiting q x item).networkWorklist = q.networkWorklist := rfl
@[simp] theorem fire_worklist : (q.fire c).networkWorklist = q.networkWorklist := rfl
@[simp] theorem counted_fired : (counted q n).fired = q.fired := rfl
@[simp] theorem withTree_fired : (withTree q t).fired = q.fired := rfl
@[simp] theorem waiting_fired : (waiting q x item).fired = q.fired := rfl
@[simp] theorem fire_fired : (q.fire c).fired = q.fired ++ [c] := rfl

@[simp] theorem queueNetwork_tree : (q.queueNetworkBacklog x).tree = q.tree := by
  unfold SharQueue.queueNetworkBacklog
  split <;> rfl

@[simp] theorem queueNetwork_fired : (q.queueNetworkBacklog x).fired = q.fired := by
  unfold SharQueue.queueNetworkBacklog
  split <;> rfl

theorem queueNetwork_backlog (k : Identity) (item : NetworkOp) :
    Waits (q.queueNetworkBacklog x).networkBacklog k item ↔ Waits q.networkBacklog k item ∧ k ≠ x := by
  unfold SharQueue.queueNetworkBacklog
  split
  · exact waits_erase
  · rename_i hl
    constructor
    · rintro ⟨l, hk, hi⟩
      refine ⟨⟨l, hk, hi⟩, ?_⟩
      rintro rfl
      rw [hl] at hk
      exact absurd hk (by simp)
    · exact fun h => h.1

theorem queueNetwork_worklist :
    item ∈ (q.queueNetworkBacklog x).networkWorklist ↔
      item ∈ q.networkWorklist ∨ Waits q.networkBacklog x item := by
  unfold SharQueue.queueNetworkBacklog Waits
  split
  · rename_i l hl
    simp [hl]
  · rename_i hl
    simp [hl]

theorem queueNetwork_pending :
    ((q.queueNetworkBacklog x).networkWorklist : Multiset NetworkOp) +
        contents (q.queueNetworkBacklog x).networkBacklog =
      q.networkWorklist + contents q.networkBacklog := by
  unfold SharQueue.queueNetworkBacklog
  split
  · rename_i l hl
    rw [contents_erase hl, ← Multiset.coe_add, Multiset.add_assoc]
  · rfl

theorem queueNetwork_tight (h : Tight q.networkBacklog) :
    Tight (q.queueNetworkBacklog x).networkBacklog := by
  unfold SharQueue.queueNetworkBacklog
  split
  · exact tight_erase h
  · exact h

end Fields

theorem pop_eq {q q₁ : SharQueue} {item : NetworkOp} (h : q.popNetwork = some (item, q₁)) :
    ∃ rest, q.networkWorklist = item :: rest ∧ q₁ = { q with networkWorklist := rest } := by
  unfold SharQueue.popNetwork at h
  split at h
  · rename_i first rest hl
    rw [Option.some.injEq, Prod.mk.injEq] at h
    obtain ⟨rfl, rfl⟩ := h
    exact ⟨rest, hl, rfl⟩
  · simp at h

theorem pop_none {q : SharQueue} (h : q.popNetwork = none) : q.networkWorklist = [] := by
  unfold SharQueue.popNetwork at h
  split at h
  · simp at h
  · assumption

theorem networkRounds_eq (q : SharQueue) :
    q.networkRounds = roundBound q.networkWorklist (contents q.networkBacklog) := by
  simp only [SharQueue.networkRounds, roundBound, size_eq_card]

theorem retry_rounds {q q₁ q₂ : SharQueue} {item : NetworkOp}
    (hp : q.popNetwork = some (item, q₁)) (h : Retried q₁ item q₂) :
    q₂.networkRounds < q.networkRounds := by
  obtain ⟨rest, hl, rfl⟩ := pop_eq hp
  rw [networkRounds_eq, networkRounds_eq, hl]
  have hwait : ∀ item', roundBound rest (item' ::ₘ contents q.networkBacklog) <
      roundBound (item :: rest) (contents q.networkBacklog) := fun _ => rounds_deferred
  cases h with
  | rootAdd _ => exact rounds_settled rfl
  | landed _ _ => exact rounds_settled (queueNetwork_pending _ _)
  | repeated _ _ => exact rounds_settled rfl
  | early _ _ =>
    rw [waiting_worklist, waiting_backlog, contents_push]
    exact hwait _
  | rootRemove _ => exact rounds_settled rfl
  | fallen _ _ => exact rounds_settled rfl
  | again _ _ => exact rounds_settled rfl
  | earlyRemove _ _ =>
    rw [waiting_worklist, waiting_backlog, contents_push]
    exact hwait _

/-- A network operation from outside. -/
def deliver (q : SharQueue) : NetworkOp → Option SharQueue
  | .add op => q.addNetworkOperation op
  | .remove op => q.removeNetworkOperation op

theorem drain_idle {q : SharQueue} (hw : q.networkWorklist = []) :
    q.drainNetworkWorklist = some q := by
  simp [SharQueue.drainNetworkWorklist, drain, SharQueue.popNetwork, hw]

theorem clear_eq {q : SharQueue} (hw : q.networkWorklist = []) (x : Identity) :
    q.clearNetworkBacklog x = (q.queueNetworkBacklog x).drainNetworkWorklist := by
  unfold SharQueue.clearNetworkBacklog
  cases hl : q.networkBacklog.lookup x with
  | some l => rfl
  | none =>
    have he : q.queueNetworkBacklog x = q := by simp [SharQueue.queueNetworkBacklog, hl]
    rw [he, drain_idle hw]

/-- Between calls the worklist is empty, and a call is a retry and a drain. -/
theorem deliver_eq {q : SharQueue} (hw : q.networkWorklist = []) (item : NetworkOp) :
    deliver q item = (q.retryNetwork item).bind SharQueue.drainNetworkWorklist := by
  cases item with
  | add op =>
    simp only [deliver, SharQueue.addNetworkOperation, SharQueue.retryNetwork,
      SharQueue.addNetworkOperationInner]
    by_cases hr : op.crdt.identity = root
    · simp only [hr, if_true, Option.bind_some]
      exact (drain_idle (by exact hw)).symm
    simp only [hr, if_false, Option.bind_eq_bind]
    cases q.tree.addCrdt (q.toLocalPath op.filePath) op.row op.crdt with
    | none => rfl
    | some ot =>
      obtain ⟨o, t⟩ := ot
      simp only [Option.bind_some]
      cases o with
      | error e => exact (drain_idle (by exact hw)).symm
      | ok pos =>
        cases pos with
        | none => exact (drain_idle (by exact hw)).symm
        | some pos => exact clear_eq (by exact hw) _
  | remove op =>
    simp only [deliver, SharQueue.retryNetwork, SharQueue.removeNetworkOperation,
      SharQueue.removeOperation]
    split
    · exact (drain_idle hw).symm
    · simp only [Option.bind_eq_bind]
      generalize q.tree.removeCrdt _ _ _ = r
      cases r with
      | none => rfl
      | some ot =>
        obtain ⟨o, t⟩ := ot
        simp only [Option.bind_some]
        cases o with
        | error e => exact (drain_idle (by exact hw)).symm
        | ok pos => cases pos <;> exact (drain_idle (by exact hw)).symm

abbrev NetworkDraining : SharQueue → SharQueue → Prop :=
  Draining SharQueue.popNetwork SharQueue.retryNetwork

def handed (q : SharQueue) (item : NetworkOp) : SharQueue := { q with networkWorklist := [item] }

theorem handed_pop {q : SharQueue} (hw : q.networkWorklist = []) (item : NetworkOp) :
    (handed q item).popNetwork = some (item, q) := by
  have hq : { q with networkWorklist := [] } = q := by
    rw [← hw]
  simp only [SharQueue.popNetwork, handed]
  rw [hq]

/-- `item` is tried in the queue `p` while `first` is delivered. -/
def RetriedIn (q : SharQueue) (first : NetworkOp) (p : SharQueue) (item : NetworkOp) : Prop :=
  ∃ p', NetworkDraining (handed q first) p' ∧ p'.popNetwork = some (item, p)

theorem retried_alone {q q' : SharQueue} {item : NetworkOp} (hb : q.networkBacklog = ∅)
    (hw : q.networkWorklist = []) (h : Retried q item q') : q'.networkWorklist = [] := by
  cases h with
  | @landed op pos t _ _ =>
    refine List.eq_nil_iff_forall_not_mem.mpr fun i hi => ?_
    rw [queueNetwork_worklist, fire_worklist, withTree_worklist, counted_worklist, hw, fire_backlog,
      withTree_backlog, counted_backlog, hb] at hi
    rcases hi with hi | ⟨l, hl, _⟩
    · simp at hi
    · simp at hl
  | rootAdd _ => exact hw
  | repeated _ _ => exact hw
  | early _ _ => exact hw
  | rootRemove _ => exact hw
  | fallen _ _ => exact hw
  | again _ _ => exact hw
  | earlyRemove _ _ => exact hw

theorem retriedIn_idle {q p t : SharQueue} {first item : NetworkOp} (hw : q.networkWorklist = [])
    (ht : q.retryNetwork first = some t) (hidle : t.popNetwork = none) (h : RetriedIn q first p item) :
    p = q ∧ item = first := by
  obtain ⟨p', hd, hpop⟩ := h
  rcases hd.after (handed_pop hw first) ht with rfl | hd
  · rw [handed_pop hw first, Option.some.injEq, Prod.mk.injEq] at hpop
    exact ⟨hpop.2.symm, hpop.1.symm⟩
  · rw [hd.stopped hidle, hidle] at hpop
    exact absurd hpop (by simp)

theorem retriedIn_alone {q p : SharQueue} {first item : NetworkOp} (hs : AllFiles Sound q.tree)
    (hb : q.networkBacklog = ∅) (hw : q.networkWorklist = []) (h : RetriedIn q first p item) :
    p = q ∧ item = first := by
  rcases retry_cases hs first with ⟨t, ht, hr⟩ | ⟨hnone, _⟩
  · exact retriedIn_idle hw ht (by simp [SharQueue.popNetwork, retried_alone hb hw hr]) h
  · obtain ⟨p', hd, hpop⟩ := h
    have hfirst := handed_pop hw first
    cases hd with
    | refl =>
      rw [hfirst, Option.some.injEq, Prod.mk.injEq] at hpop
      exact ⟨hpop.2.symm, hpop.1.symm⟩
    | step hp ht _ =>
      rw [hfirst, Option.some.injEq, Prod.mk.injEq] at hp
      obtain ⟨rfl, rfl⟩ := hp
      rw [ht] at hnone
      exact absurd hnone (by simp)

theorem retriedIn_woken {q p t s u : SharQueue} {first second item : NetworkOp}
    (hw : q.networkWorklist = []) (ht : q.retryNetwork first = some t)
    (hsecond : t.popNetwork = some (second, s)) (hu : s.retryNetwork second = some u)
    (hidle : u.popNetwork = none) (h : RetriedIn q first p item) :
    p = q ∧ item = first ∨ p = s ∧ item = second := by
  obtain ⟨p', hd, hpop⟩ := h
  rcases hd.after (handed_pop hw first) ht with rfl | hd
  · rw [handed_pop hw first, Option.some.injEq, Prod.mk.injEq] at hpop
    exact Or.inl ⟨hpop.2.symm, hpop.1.symm⟩
  · rcases hd.after hsecond hu with rfl | hd
    · rw [hsecond, Option.some.injEq, Prod.mk.injEq] at hpop
      exact Or.inr ⟨hpop.2.symm, hpop.1.symm⟩
    · rw [hd.stopped hidle, hidle] at hpop
      exact absurd hpop (by simp)

theorem deliver_draining {q q' : SharQueue} (hw : q.networkWorklist = []) {item : NetworkOp}
    (h : deliver q item = some q') :
    NetworkDraining (handed q item) q' ∧ q'.networkWorklist = [] := by
  rw [deliver_eq hw, Option.bind_eq_some_iff] at h
  obtain ⟨p, hp, h⟩ := h
  obtain ⟨hd, hpop⟩ := drain_draining h
  exact ⟨.step (handed_pop hw item) hp hd, pop_none hpop⟩

/-- The rule for a call that returns: its retries keep the invariant. -/
theorem deliver_keeps {J : SharQueue → Prop} {q q' : SharQueue} {first : NetworkOp}
    (hsound : ∀ p, J p → AllFiles Sound p.tree)
    (hstep : ∀ p item p₁ p₂, J p → p.popNetwork = some (item, p₁) → RetriedIn q first p₁ item →
      Retried p₁ item p₂ → J p₂)
    (hw : q.networkWorklist = []) (h₀ : J (handed q first)) (h : deliver q first = some q') :
    J q' ∧ q'.networkWorklist = [] := by
  obtain ⟨hd, hq'⟩ := deliver_draining hw h
  refine ⟨?_, hq'⟩
  have hpath : ∀ {s t : SharQueue}, NetworkDraining s t → NetworkDraining (handed q first) s →
      J s → J t := by
    intro s t hst
    induction hst with
    | refl => exact fun _ hs => hs
    | @step s s₁ t u item hp ht _ ih =>
      intro hfrom hs
      apply ih (hfrom.trans (.step hp ht (.refl t)))
      have hsd : AllFiles Sound s₁.tree := by
        obtain ⟨rest, _, rfl⟩ := pop_eq hp
        exact hsound s hs
      rcases retry_cases hsd item with ⟨t', ht', hr⟩ | ⟨hnone, _⟩
      · rw [ht, Option.some.injEq] at ht'
        exact hstep s item s₁ t hs hp ⟨s, hfrom, hp⟩ (ht' ▸ hr)
      · rw [ht] at hnone
        exact absurd hnone (by simp)
  exact hpath hd (.refl _) h₀

theorem deliver_returns {J : SharQueue → Prop} {q : SharQueue} {first : NetworkOp}
    (hsound : ∀ p, J p → AllFiles Sound p.tree)
    (hsafe : ∀ p item p₁, J p → p.popNetwork = some (item, p₁) → RetriedIn q first p₁ item →
      ¬ Crashes p₁ item)
    (hstep : ∀ p item p₁ p₂, J p → p.popNetwork = some (item, p₁) → RetriedIn q first p₁ item →
      Retried p₁ item p₂ → J p₂)
    (hw : q.networkWorklist = []) (h₀ : J (handed q first)) :
    ∃ q', deliver q first = some q' ∧ J q' ∧ q'.networkWorklist = [] := by
  have hround : ∀ p item p₁, J p ∧ NetworkDraining (handed q first) p →
      p.popNetwork = some (item, p₁) → ∃ p₂, p₁.retryNetwork item = some p₂ ∧
        (J p₂ ∧ NetworkDraining (handed q first) p₂) ∧ p₂.networkRounds < p.networkRounds := by
    rintro p item p₁ ⟨hp, hd⟩ hpop
    have hin : RetriedIn q first p₁ item := ⟨p, hd, hpop⟩
    have hsd : AllFiles Sound p₁.tree := by
      obtain ⟨rest, _, rfl⟩ := pop_eq hpop
      exact hsound p hp
    rcases retry_cases hsd item with ⟨p₂, he, hr⟩ | ⟨_, hc⟩
    · exact ⟨p₂, he, ⟨hstep p item p₁ p₂ hp hpop hin hr, hd.trans (.step hpop he (.refl p₂))⟩,
        retry_rounds hpop hr⟩
    · exact absurd hc (hsafe p item p₁ hp hpop hin)
  obtain ⟨p, hp, hJp, _⟩ := hround _ _ _ ⟨h₀, .refl _⟩ (handed_pop hw first)
  obtain ⟨q', hq', hJ, hpop⟩ := drain_total hround hJp (Nat.lt_succ_self _)
  refine ⟨q', ?_, hJ.1, pop_none hpop⟩
  rw [deliver_eq hw, hp]
  exact hq'

end QueueSteps
