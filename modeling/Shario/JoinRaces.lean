import Shario.BufferReplay
import Mathlib.Algebra.BigOperators.Group.Finset.Basic
import Mathlib.Data.Fintype.Card

/-! `queue_wrap.rs` when several IDEs join: each join loads its directory and runs `new` on the
same `QueueWrap`, while network operations come in. The joins race for the queue. -/
namespace JoinRaces

open CrdtTypes GuardedRuns
open BufferReplay (Sent Party Queue CallPhase NewPhase)

inductive Holder (ι : Type) where
  | call (s : Sent)
  | join (j : ι)

/-- A join without a directory to load, or behind another one, is turned away. -/
inductive JoinPhase where
  | new (phase : NewPhase)
  | turnedAway

structure SharedWrap (ι : Type) where
  queue : Queue
  queueInitialized : Bool
  buffer : List Sent
  queueLock : Option (Holder ι)
  bufferLock : Option (Holder ι)
  call : Sent → CallPhase
  join : ι → JoinPhase

inductive Event (ι : Type) where
  | load (s : Sent)
  | lockQueue (s : Sent)
  | apply (s : Sent)
  | lockBuffer (s : Sent)
  | push (s : Sent)
  | joinFail (j : ι)
  | joinLock (j : ι)
  | joinPass (j : ι)
  | joinSwap (j : ι)
  | joinStore (j : ι)
  | joinRelease (j : ι)
  | joinRead (j : ι)
  | joinLoad (j : ι)
  | joinRelock (j : ι)
  | joinApply (j : ι)
  | joinReturn (j : ι)

section Model

variable {ι : Type} [DecidableEq ι]

def initial : SharedWrap ι :=
  ⟨.default, false, [], none, none, fun _ => .idle, fun _ => .new .loading⟩

def SharedWrap.setCall (w : SharedWrap ι) (s : Sent) (phase : CallPhase) : SharedWrap ι :=
  { w with call := Function.update w.call s phase }

def SharedWrap.setJoin (w : SharedWrap ι) (j : ι) (phase : JoinPhase) : SharedWrap ι :=
  { w with join := Function.update w.join j phase }

/-- `loads j` when the directory of join `j` can be loaded. -/
inductive Step (loads : ι → Prop) (w : SharedWrap ι) : Event ι → SharedWrap ι → Prop where
  | load {s} : w.call s = .idle → Step loads w (.load s) (w.setCall s (.loaded w.queueInitialized))
  | lockQueue {s} : w.call s = .loaded true → w.queueLock = none →
      Step loads w (.lockQueue s) { w.setCall s .queueLocked with queueLock := some (.call s) }
  | apply {s} : w.call s = .queueLocked →
      Step loads w (.apply s)
        { w.setCall s .returned with queue := w.queue.hand s, queueLock := none }
  | lockBuffer {s} : w.call s = .loaded false → w.bufferLock = none →
      Step loads w (.lockBuffer s) { w.setCall s .bufferLocked with bufferLock := some (.call s) }
  | push {s} : w.call s = .bufferLocked →
      Step loads w (.push s)
        { w.setCall s .returned with buffer := w.buffer ++ [s], bufferLock := none }
  -- `SharQueue::new` with `?`
  | joinFail {j} : w.join j = .new .loading → ¬ loads j →
      Step loads w (.joinFail j) (w.setJoin j .turnedAway)
  | joinLock {j} : w.join j = .new .loading → loads j → w.queueLock = none →
      Step loads w (.joinLock j)
        { w.setJoin j (.new .queueLocked) with queueLock := some (.join j) }
  -- the queue has its callbacks
  | joinPass {j} : w.join j = .new .queueLocked → w.queue ≠ .default →
      Step loads w (.joinPass j) { w.setJoin j .turnedAway with queueLock := none }
  | joinSwap {j} : w.join j = .new .queueLocked → w.queue = .default →
      Step loads w (.joinSwap j) { w.setJoin j (.new .swapped) with queue := .real [] }
  | joinStore {j} : w.join j = .new .swapped →
      Step loads w (.joinStore j) { w.setJoin j (.new .stored) with queueInitialized := true }
  | joinRelease {j} : w.join j = .new .stored →
      Step loads w (.joinRelease j) { w.setJoin j (.new .released) with queueLock := none }
  | joinRead {j} : w.join j = .new .released → w.bufferLock = none →
      Step loads w (.joinRead j)
        { w.setJoin j (.new (.replaying w.buffer)) with bufferLock := some (.join j) }
  | joinLoad {j s rest} : w.join j = .new (.replaying (s :: rest)) →
      Step loads w (.joinLoad j) (w.setJoin j (.new (.loaded w.queueInitialized s rest)))
  -- with the flag unset the operation would wait for the buffer that the join itself holds
  | joinRelock {j s rest} : w.join j = .new (.loaded true s rest) → w.queueLock = none →
      Step loads w (.joinRelock j)
        { w.setJoin j (.new (.applying s rest)) with queueLock := some (.join j) }
  | joinApply {j s rest} : w.join j = .new (.applying s rest) →
      Step loads w (.joinApply j)
        { w.setJoin j (.new (.replaying rest)) with queue := w.queue.hand s, queueLock := none }
  | joinReturn {j} : w.join j = .new (.replaying []) →
      Step loads w (.joinReturn j) { w.setJoin j (.new .returned) with bufferLock := none }

def AnyEvent (_ : SharedWrap ι) (_ : Event ι) : Prop := True

/-- No call that found the flag unset pushes once a join has taken the buffer. -/
def Punctual (w : SharedWrap ι) (e : Event ι) : Prop :=
  ∀ s, e = .push s → ∀ j phase, w.join j = .new phase → phase.taken = false

@[simp]
def JoinPhase.AtQueue : JoinPhase → Prop
  | .new .queueLocked | .new .swapped | .new .stored | .new (.applying _ _) => True
  | _ => False

@[simp]
def JoinPhase.AtBuffer : JoinPhase → Prop
  | .new (.replaying _) | .new (.loaded _ _ _) | .new (.applying _ _) => True
  | _ => False

def QueueHeld (call : Sent → CallPhase) (join : ι → JoinPhase) : Holder ι → Prop
  | .call s => call s = .queueLocked
  | .join j => (join j).AtQueue

def BufferHeld (call : Sent → CallPhase) (join : ι → JoinPhase) : Holder ι → Prop
  | .call s => call s = .bufferLocked
  | .join j => (join j).AtBuffer

def Locked (lock : Option (Holder ι)) (held : Holder ι → Prop) : Prop :=
  ∀ h, lock = some h ↔ held h

structure Locks (w : SharedWrap ι) : Prop where
  queue : Locked w.queueLock (QueueHeld w.call w.join)
  buffer : Locked w.bufferLock (BufferHeld w.call w.join)

def Holder.seen (winner : Option ι) : Holder ι → Option Party
  | .call s => some (.call s)
  | .join j => if winner = some j then some .new else none

def JoinPhase.seen : JoinPhase → NewPhase
  | .new phase => phase
  | .turnedAway => .loading

/-- The other joins are left out. -/
def project (winner : Option ι) (w : SharedWrap ι) : BufferReplay.QueueWrap where
  queue := w.queue
  queueInitialized := w.queueInitialized
  buffer := w.buffer
  queueLock := w.queueLock.bind (Holder.seen winner)
  bufferLock := w.bufferLock.bind (Holder.seen winner)
  call := w.call
  new := match winner with
    | none => .loading
    | some j => (w.join j).seen

/-- Only the winner has come past its first lock; the queue is installed when another one locks. -/
structure Race (loads : ι → Prop) (winner : Option ι) (w : SharedWrap ι) : Prop where
  unwon : winner = none → w.queue = .default ∧ ∀ j, w.join j = .turnedAway → ¬ loads j
  won : ∀ j, winner = some j → loads j ∧ ∃ phase, w.join j = .new phase ∧ phase ≠ .loading ∧
    (phase = .queueLocked ↔ w.queue = .default)
  others : ∀ j phase, winner ≠ some j → w.join j = .new phase →
    phase = .loading ∨ phase = .queueLocked ∧ w.queue ≠ .default

variable {loads : ι → Prop} {w u : SharedWrap ι} {e : Event ι} {winner : Option ι} {j : ι}
  {s : Sent}

section Locks

variable {lock lock' : Option (Holder ι)} {held held' : Holder ι → Prop} {h : Holder ι}

inductive Turn (h : Holder ι) : Option (Holder ι) → Prop → Option (Holder ι) → Prop → Prop where
  | take {p q} : q → Turn h none p (some h) q
  | release {lock p q} : p → ¬ q → Turn h lock p none q
  | keep {lock p q} : (q ↔ p) → Turn h lock p lock q

omit [DecidableEq ι] in
theorem Locked.turn (hl : Locked lock held) (ho : ∀ k, k ≠ h → (held' k ↔ held k))
    (ht : Turn h lock (held h) lock' (held' h)) : Locked lock' held' := by
  intro k
  by_cases hk : k = h
  · subst hk
    cases ht with
    | take hq => exact iff_of_true rfl hq
    | release _ hq => exact iff_of_false (by simp) hq
    | keep hq => exact (hl k).trans hq.symm
  · rw [ho k hk, ← hl k]
    cases ht with
    | take _ => simp [Ne.symm hk]
    | release hp _ => simp [(hl h).mpr hp, Ne.symm hk]
    | keep _ => rfl

omit [DecidableEq ι] in
theorem locks_call {phase : CallPhase} (hl : Locks w) (hj : u.join = w.join)
    (hc : u.call = Function.update w.call s phase)
    (hq : Turn (.call s) w.queueLock (w.call s = .queueLocked) u.queueLock (phase = .queueLocked))
    (hb : Turn (.call s) w.bufferLock (w.call s = .bufferLocked) u.bufferLock
      (phase = .bufferLocked)) : Locks u := by
  have hself : u.call s = phase := by rw [hc, Function.update_self]
  refine ⟨hl.queue.turn (h := .call s) (fun k hk => ?_) (by simpa [QueueHeld, hself] using hq),
    hl.buffer.turn (h := .call s) (fun k hk => ?_) (by simpa [BufferHeld, hself] using hb)⟩
  all_goals
    cases k with
    | call t =>
      have hts : t ≠ s := fun he => hk (by rw [he])
      simp only [QueueHeld, BufferHeld, hc, Function.update_of_ne hts]
    | join j => simp only [QueueHeld, BufferHeld, hj]

theorem locks_join {phase : JoinPhase} (hl : Locks w) (hc : u.call = w.call)
    (hj : u.join = Function.update w.join j phase)
    (hq : Turn (.join j) w.queueLock (w.join j).AtQueue u.queueLock phase.AtQueue)
    (hb : Turn (.join j) w.bufferLock (w.join j).AtBuffer u.bufferLock phase.AtBuffer) :
    Locks u := by
  have hself : u.join j = phase := by rw [hj, Function.update_self]
  refine ⟨hl.queue.turn (h := .join j) (fun k hk => ?_) (by simpa [QueueHeld, hself] using hq),
    hl.buffer.turn (h := .join j) (fun k hk => ?_) (by simpa [BufferHeld, hself] using hb)⟩
  all_goals
    cases k with
    | call t => simp only [QueueHeld, BufferHeld, hc]
    | join i =>
      have hij : i ≠ j := fun he => hk (by rw [he])
      simp only [QueueHeld, BufferHeld, hj, Function.update_of_ne hij]

end Locks

omit [DecidableEq ι] in
theorem locks_initial : Locks (initial (ι := ι)) := by
  constructor <;> intro h <;> cases h <;>
    simp [initial, QueueHeld, BufferHeld]

theorem locks_step (hl : Locks w) (hs : Step loads w e u) : Locks u := by
  cases hs with
  | load hc => exact locks_call hl rfl rfl (.keep (by simp [hc])) (.keep (by simp [hc]))
  | lockQueue hc hn => exact locks_call hl rfl rfl (hn ▸ .take rfl) (.keep (by simp [hc]))
  | apply hc => exact locks_call hl rfl rfl (.release hc (by simp)) (.keep (by simp [hc]))
  | lockBuffer hc hn => exact locks_call hl rfl rfl (.keep (by simp [hc])) (hn ▸ .take rfl)
  | push hc => exact locks_call hl rfl rfl (.keep (by simp [hc])) (.release hc (by simp))
  | joinFail hj _ =>
    exact locks_join hl rfl rfl (.keep (by simp [hj]))
      (.keep (by simp [hj]))
  | joinLock hj _ hn =>
    exact locks_join hl rfl rfl (hn ▸ .take trivial) (.keep (by simp [hj]))
  | joinPass hj _ =>
    exact locks_join hl rfl rfl (.release (by simp [hj]) id)
      (.keep (by simp [hj]))
  | joinSwap hj _ =>
    exact locks_join hl rfl rfl (.keep (by simp [hj]))
      (.keep (by simp [hj]))
  | joinStore hj =>
    exact locks_join hl rfl rfl (.keep (by simp [hj]))
      (.keep (by simp [hj]))
  | joinRelease hj =>
    exact locks_join hl rfl rfl (.release (by simp [hj]) id)
      (.keep (by simp [hj]))
  | joinRead hj hn =>
    exact locks_join hl rfl rfl (.keep (by simp [hj])) (hn ▸ .take trivial)
  | joinLoad hj =>
    exact locks_join hl rfl rfl (.keep (by simp [hj]))
      (.keep (by simp [hj]))
  | joinRelock hj hn =>
    exact locks_join hl rfl rfl (hn ▸ .take trivial) (.keep (by simp [hj]))
  | joinApply hj =>
    exact locks_join hl rfl rfl (.release (by simp [hj]) id)
      (.keep (by simp [hj]))
  | joinReturn hj =>
    exact locks_join hl rfl rfl (.keep (by simp [hj]))
      (.release (by simp [hj]) id)

omit [DecidableEq ι] in
theorem race_initial : Race loads none (initial (ι := ι)) :=
  ⟨fun _ => ⟨rfl, fun j h => by simp [initial] at h⟩, fun j h => by simp at h,
    fun j phase _ h => Or.inl (by simpa [initial] using h.symm)⟩

omit [DecidableEq ι] in
theorem race_same (hr : Race loads winner w) (hj : u.join = w.join)
    (hq : u.queue = .default ↔ w.queue = .default) : Race loads winner u := by
  obtain ⟨hun, hwon, hothers⟩ := hr
  refine ⟨fun h => ?_, fun j h => ?_, fun j phase h hp => ?_⟩
  · rw [hq, hj]
    exact hun h
  · rw [hq, hj]
    exact hwon j h
  · rw [hj] at hp
    rw [Ne, hq]
    exact hothers j phase h hp

theorem race_winner {phase : NewPhase} (hr : Race loads (some j) w)
    (hj : u.join = Function.update w.join j (.new phase)) (hp : phase ≠ .loading)
    (hq : phase = .queueLocked ↔ u.queue = .default)
    (hmono : w.queue ≠ .default → u.queue ≠ .default) : Race loads (some j) u := by
  refine ⟨fun h => by simp at h, fun i hi => ?_, fun i p hi hip => ?_⟩
  · cases hi
    exact ⟨(hr.won j rfl).1, phase, by rw [hj, Function.update_self], hp, hq⟩
  · have hij : i ≠ j := fun he => hi (by rw [he])
    rw [hj, Function.update_of_ne hij] at hip
    exact (hr.others i p hi hip).imp id fun h => ⟨h.1, hmono h.2⟩

theorem race_other {phase : JoinPhase} (hr : Race loads winner w) (hne : winner ≠ some j)
    (hj : u.join = Function.update w.join j phase) (hq : u.queue = w.queue)
    (hp : phase = .new .queueLocked ∧ w.queue ≠ .default ∨
      phase = .turnedAway ∧ (loads j → w.queue ≠ .default)) : Race loads winner u := by
  obtain ⟨hun, hwon, hothers⟩ := hr
  refine ⟨fun h => ⟨hq ▸ (hun h).1, fun i hi => ?_⟩, fun i hi => ?_, fun i p hi hip => ?_⟩
  · by_cases hij : i = j
    · subst hij
      rcases hp with ⟨_, hd⟩ | ⟨_, hd⟩
      · exact absurd (hun h).1 hd
      · exact fun hload => hd hload (hun h).1
    · rw [hj, Function.update_of_ne hij] at hi
      exact (hun h).2 i hi
  · have hij : i ≠ j := fun he => hne (by rw [hi, he])
    rw [hj, Function.update_of_ne hij, hq]
    exact hwon i hi
  · by_cases hij : i = j
    · subst hij
      rw [hj, Function.update_self] at hip
      rcases hp with ⟨he, hd⟩ | ⟨he, _⟩
      · rw [he, JoinPhase.new.injEq] at hip
        exact Or.inr ⟨hip.symm, hq ▸ hd⟩
      · rw [he] at hip
        cases hip
    · rw [hj, Function.update_of_ne hij] at hip
      rw [hq]
      exact hothers i p hi hip

theorem winner_of {phase : NewPhase} (hr : Race loads winner w) (hj : w.join j = .new phase)
    (hl : phase ≠ .loading) (hq : phase ≠ .queueLocked ∨ w.queue = .default) :
    winner = some j := by
  by_contra hne
  rcases hr.others j phase hne hj with h | ⟨h, hd⟩
  · exact hl h
  · rcases hq with hq | hq
    · exact hq h
    · exact hd hq

omit [DecidableEq ι] in
theorem won_phase {phase : NewPhase} (hr : Race loads winner w) (hw : winner = some j)
    (hj : w.join j = .new phase) :
    phase ≠ .loading ∧ (phase = .queueLocked ↔ w.queue = .default) := by
  obtain ⟨_, p, hp, hload, hq⟩ := hr.won j hw
  rw [hj, JoinPhase.new.injEq] at hp
  subst hp
  exact ⟨hload, hq⟩

/-- What the one `new` sees of a step. -/
inductive Seen (winner winner' : Option ι) (w u : SharedWrap ι) (e : Event ι) : Prop where
  | hidden : project winner' u = project winner w → (∀ s, e ≠ .push s) → Seen winner winner' w u e
  | step (e' : BufferReplay.Event) :
      BufferReplay.Step (project winner w) e' (project winner' u) → (∀ s, e' = .push s ↔ e = .push s) →
      Seen winner winner' w u e

/-- A step behind the swap is one of the winner, and the queue stays installed. -/
theorem winner_step {phase phase' : NewPhase} (e' : BufferReplay.Event) (hr : Race loads winner w)
    (hj : w.join j = .new phase) (hp : phase ≠ .loading ∧ phase ≠ .queueLocked)
    (hu : u.join = Function.update w.join j (.new phase'))
    (hp' : phase' ≠ .loading ∧ phase' ≠ .queueLocked) (hq : u.queue = .default ↔ w.queue = .default)
    (hs : BufferReplay.Step (project (some j) w) e' (project (some j) u))
    (he : ∀ s, e' = .push s ↔ e = .push s) :
    ∃ winner', Race loads winner' u ∧ Seen winner winner' w u e := by
  obtain rfl := winner_of hr hj hp.1 (Or.inl hp.2)
  have hd : ¬ w.queue = .default := fun h => hp.2 ((won_phase hr rfl hj).2.mpr h)
  have hd' : ¬ u.queue = .default := fun h => hd (hq.mp h)
  exact ⟨some j, race_winner hr hu hp'.1 (iff_of_false hp'.2 hd') fun _ => hd', .step e' hs he⟩

theorem hand_default (q : Queue) (s : Sent) : q.hand s = .default ↔ q = .default := by
  cases q <;> simp [Queue.hand]

theorem project_setJoin {phase : JoinPhase} (hne : winner ≠ some j) :
    project winner (w.setJoin j phase) = project winner w := by
  cases winner with
  | none => rfl
  | some i =>
    have hij : i ≠ j := fun he => hne (by rw [he])
    simp only [project, SharedWrap.setJoin, Function.update_of_ne hij]

theorem seen_calls (winner winner' : Option ι) {lock : Option (Holder ι)}
    (h : ∀ i, lock ≠ some (.join i)) :
    lock.bind (Holder.seen winner) = lock.bind (Holder.seen winner') := by
  rcases lock with _ | ⟨s⟩ | ⟨i⟩
  · rfl
  · rfl
  · exact absurd rfl (h i)

theorem race_step (hl : Locks w) (hr : Race loads winner w) (hs : Step loads w e u) :
    ∃ winner', Race loads winner' u ∧ Seen winner winner' w u e := by
  cases hs with
  | @load s hc =>
    exact ⟨winner, race_same hr rfl Iff.rfl, .step (.load s) ⟨hc, rfl⟩ (by simp)⟩
  | @lockQueue s hc hn =>
    have hn' : (project winner w).queueLock = none := by simp [project, hn]
    exact ⟨winner, race_same hr rfl Iff.rfl, .step (.lockQueue s) ⟨⟨hc, hn'⟩, rfl⟩ (by simp)⟩
  | @apply s hc =>
    exact ⟨winner, race_same hr rfl (hand_default _ s), .step (.apply s) ⟨hc, rfl⟩ (by simp)⟩
  | @lockBuffer s hc hn =>
    have hn' : (project winner w).bufferLock = none := by simp [project, hn]
    exact ⟨winner, race_same hr rfl Iff.rfl, .step (.lockBuffer s) ⟨⟨hc, hn'⟩, rfl⟩ (by simp)⟩
  | @push s hc =>
    exact ⟨winner, race_same hr rfl Iff.rfl, .step (.push s) ⟨hc, rfl⟩ (by simp)⟩
  | @joinFail j hj hload =>
    have hne : winner ≠ some j := fun h => (won_phase hr h hj).1 rfl
    exact ⟨winner, race_other hr hne rfl rfl (Or.inr ⟨rfl, fun h => absurd h hload⟩),
      .hidden (project_setJoin hne) (by simp)⟩
  | @joinLock j hj hload hn =>
    have hp : project winner { w.setJoin j (.new .queueLocked) with
        queueLock := some (.join j) } =
        { project winner (w.setJoin j (.new .queueLocked)) with
          queueLock := Holder.seen winner (.join j) } := rfl
    cases winner with
    | none =>
      obtain ⟨hd, _⟩ := hr.unwon rfl
      refine ⟨some j, ⟨fun h => by simp at h, fun i hi => ?_, fun i p hi hip => ?_⟩,
        .step .newLock ⟨⟨rfl, by simp [project, hn]⟩, ?_⟩ (by simp)⟩
      · cases hi
        exact ⟨hload, .queueLocked, by simp [SharedWrap.setJoin], by simp, iff_of_true rfl hd⟩
      · have hij : i ≠ j := fun he => hi (by rw [he])
        simp only [SharedWrap.setJoin, Function.update_of_ne hij] at hip
        exact hr.others i p (by simp) hip
      · have hb : ∀ i, w.bufferLock ≠ some (.join i) := by
          intro i hi
          have hheld := (hl.buffer _).mp hi
          simp only [BufferHeld] at hheld
          cases hi : w.join i with
          | turnedAway => simp [hi] at hheld
          | new phase =>
            rcases hr.others i phase (by simp) hi with h | ⟨h, _⟩ <;> simp [hi, h] at hheld
        have hseen := seen_calls (some j) none hb
        simpa [project, BufferReplay.next, Holder.seen, JoinPhase.seen, SharedWrap.setJoin] using hseen
    | some i =>
      have hne : some i ≠ some j := fun h => (won_phase hr h hj).1 rfl
      obtain ⟨_, phase, hi, _, hq⟩ := hr.won i rfl
      -- the lock is free, so the winner has swapped
      have hd : w.queue ≠ .default := by
        intro h
        have hheld := (hl.queue (.join i)).mpr (by simp [QueueHeld, hi, hq.mpr h])
        rw [hn] at hheld
        cases hheld
      refine ⟨some i, race_other hr hne rfl rfl (Or.inl ⟨rfl, hd⟩), .hidden ?_ (by simp)⟩
      rw [hp, project_setJoin hne]
      simp only [Holder.seen, if_neg hne]
      simp [project, hn]
  | @joinPass j hj hd =>
    have hne : winner ≠ some j := fun h => hd ((won_phase hr h hj).2.mp rfl)
    have hlock := (hl.queue (.join j)).mpr (by simp [QueueHeld, hj])
    refine ⟨winner, race_other hr hne rfl rfl (Or.inr ⟨rfl, fun _ => hd⟩), .hidden ?_ (by simp)⟩
    have hp : project winner { w.setJoin j .turnedAway with queueLock := none } =
        { project winner (w.setJoin j .turnedAway) with queueLock := none } := rfl
    rw [hp, project_setJoin hne]
    simp [project, hlock, Holder.seen, hne]
  | @joinSwap j hj hd =>
    obtain rfl := winner_of hr hj (by simp) (Or.inr hd)
    refine ⟨some j, race_winner hr rfl (by simp) (by simp) (by simp),
      .step .newSwap ⟨⟨by simp [project, hj, JoinPhase.seen], hd⟩, ?_⟩ (by simp)⟩
    simp [project, BufferReplay.next, SharedWrap.setJoin, JoinPhase.seen]
  | @joinStore j hj =>
    refine winner_step .newStore hr hj (by simp) rfl (by simp) Iff.rfl ⟨?_, ?_⟩ (by simp)
    · simp [project, hj, JoinPhase.seen, BufferReplay.Enabled]
    · simp [project, BufferReplay.next, SharedWrap.setJoin, JoinPhase.seen]
  | @joinRelease j hj =>
    refine winner_step .newRelease hr hj (by simp) rfl (by simp) Iff.rfl ⟨?_, ?_⟩ (by simp)
    · simp [project, hj, JoinPhase.seen, BufferReplay.Enabled]
    · simp [project, BufferReplay.next, SharedWrap.setJoin, JoinPhase.seen]
  | @joinRead j hj hn =>
    refine winner_step .newRead hr hj (by simp) rfl (by simp) Iff.rfl ⟨?_, ?_⟩ (by simp)
    · simp [project, hj, hn, JoinPhase.seen, BufferReplay.Enabled]
    · simp [project, BufferReplay.next, SharedWrap.setJoin, JoinPhase.seen, Holder.seen]
  | @joinLoad j s rest hj =>
    refine winner_step .newLoad hr hj (by simp) rfl (by simp) Iff.rfl ⟨?_, ?_⟩ (by simp)
    · exact ⟨s, rest, by simp [project, hj, JoinPhase.seen]⟩
    · simp [project, BufferReplay.next, SharedWrap.setJoin, JoinPhase.seen, hj]
  | @joinRelock j s rest hj hn =>
    refine winner_step .newRelock hr hj (by simp) rfl (by simp) Iff.rfl ⟨?_, ?_⟩ (by simp)
    · exact ⟨⟨s, rest, by simp [project, hj, JoinPhase.seen]⟩, by simp [project, hn]⟩
    · simp [project, BufferReplay.next, SharedWrap.setJoin, JoinPhase.seen, Holder.seen, hj]
  | @joinApply j s rest hj =>
    refine winner_step .newApply hr hj (by simp) rfl (by simp) (hand_default w.queue s) ⟨?_, ?_⟩
      (by simp)
    · exact ⟨s, rest, by simp [project, hj, JoinPhase.seen]⟩
    · simp [project, BufferReplay.next, SharedWrap.setJoin, JoinPhase.seen, hj]
  | @joinReturn j hj =>
    refine winner_step .newReturn hr hj (by simp) rfl (by simp) Iff.rfl ⟨?_, ?_⟩ (by simp)
    · simp [project, hj, JoinPhase.seen, BufferReplay.Enabled]
    · simp [project, BufferReplay.next, SharedWrap.setJoin, JoinPhase.seen]

theorem Seen.keeps {J : BufferReplay.QueueWrap → Prop} {winner' : Option ι}
    (hs : Seen winner winner' w u e) (hw : J (project winner w))
    (hstep : ∀ e' q, BufferReplay.Step (project winner w) e' q → (∀ s, e' = .push s ↔ e = .push s) →
      J q) : J (project winner' u) := by
  cases hs with
  | hidden hp _ => exact hp ▸ hw
  | step e' hs he => exact hstep e' _ hs he

structure Raced (loads : ι → Prop) (winner : Option ι) (w : SharedWrap ι) : Prop where
  race : Race loads winner w
  locks : Locks w
  sound : BufferReplay.Sound (project winner w)
  once : ((project winner w).queue.handed ++ BufferReplay.waiting (project winner w)).Nodup

theorem once_moved {q q' : BufferReplay.QueueWrap} {e : BufferReplay.Event}
    (h : (q.queue.handed ++ BufferReplay.waiting q).Nodup) (hu : BufferReplay.Unsent q)
    (hm : BufferReplay.Moved q e q') : (q'.queue.handed ++ BufferReplay.waiting q').Nodup := by
  cases hm with
  | still hh hw _ _ _ _ => rwa [hh, hw]
  | @apply s _ hc hh hw _ _ _ =>
    obtain ⟨hout, _, hwait⟩ := hu s hc
    rw [hh, hw, List.append_assoc, List.singleton_append, List.nodup_middle, List.nodup_cons]
    exact ⟨by simp [hout, hwait], h⟩
  | @push s _ hc hh hw _ _ _ =>
    obtain ⟨hout, _, hwait⟩ := hu s hc
    rw [hh, hw]
    split
    · exact h
    · rw [← List.append_assoc, List.nodup_append_comm, List.singleton_append, List.nodup_cons]
      exact ⟨by simp [hout, hwait], h⟩
  | @replay s _ hw hh _ _ _ =>
    rw [hh, List.append_assoc, List.singleton_append, ← hw]
    exact h

theorem raced_initial : Raced loads none (initial (ι := ι)) :=
  ⟨race_initial, locks_initial, BufferReplay.sound_initial, List.nodup_nil⟩

theorem raced_step (h : Raced loads winner w) (hs : Step loads w e u) :
    ∃ winner', Raced loads winner' u ∧ Seen winner winner' w u e := by
  obtain ⟨hr, hl, hsound, honce⟩ := h
  obtain ⟨winner', hr', hseen⟩ := race_step hl hr hs
  have hsound' := hseen.keeps hsound fun _ _ hstep _ => BufferReplay.sound_step hsound hstep
  have honce' := hseen.keeps honce fun _ _ hstep _ =>
    once_moved honce hsound.2 (BufferReplay.step_moved hsound.1 hstep)
  exact ⟨winner', ⟨hr', locks_step hl hs, hsound', honce'⟩, hseen⟩

theorem taken_seen {phase : NewPhase} (hr : Race loads winner w) (hj : w.join j = .new phase)
    (ht : phase.taken = true) : (project winner w).new.taken = true := by
  have hw : winner = some j := by
    refine winner_of hr hj (fun h => ?_) (Or.inl fun h => ?_)
    all_goals simp [h, NewPhase.taken] at ht
  subst hw
  simpa [project, hj, JoinPhase.seen] using ht

theorem seen_punctual {e' : BufferReplay.Event} (hp : Punctual w e)
    (he : ∀ s, e' = .push s ↔ e = .push s) : BufferReplay.Punctual (project winner w) e' := by
  intro s hs
  cases winner with
  | none => rfl
  | some j =>
    cases hj : w.join j with
    | new phase => simpa [project, hj, JoinPhase.seen] using hp s ((he s).mp hs) j phase hj
    | turnedAway => simp [project, hj, JoinPhase.seen, NewPhase.taken]

theorem run_kept {l : List (Event ι)} (h : Raced loads winner w)
    (hk : BufferReplay.Kept (project winner w)) (hrun : Run (Step loads) Punctual w l u) :
    ∃ winner', Raced loads winner' u ∧ BufferReplay.Kept (project winner' u) := by
  refine hrun.invariant
    (J := fun w => ∃ winner, Raced loads winner w ∧ BufferReplay.Kept (project winner w))
    (fun w e u hw hp hs => ?_) ⟨winner, h, hk⟩
  obtain ⟨winner, hw, hk⟩ := hw
  obtain ⟨winner', hu, hseen⟩ := raced_step hw hs
  exact ⟨winner', hu, hseen.keeps hk fun _ _ hstep he =>
    BufferReplay.kept_moved hk (seen_punctual hp he) (BufferReplay.step_moved hw.sound.1 hstep)⟩

theorem run_lost {l : List (Event ι)} (h : Raced loads winner w)
    (hlost : BufferReplay.Lost s (project winner w)) (hrun : Run (Step loads) AnyEvent w l u) :
    ∃ winner', BufferReplay.Lost s (project winner' u) := by
  have hinv : ∃ winner, Raced loads winner u ∧ BufferReplay.Lost s (project winner u) := by
    refine hrun.invariant
      (J := fun w => ∃ winner, Raced loads winner w ∧ BufferReplay.Lost s (project winner w))
      (fun w e u hw _ hs => ?_) ⟨winner, h, hlost⟩
    obtain ⟨winner, hw, hlost⟩ := hw
    obtain ⟨winner', hu, hseen⟩ := raced_step hw hs
    exact ⟨winner', hu, hseen.keeps hlost fun _ _ hstep _ =>
      BufferReplay.lost_moved hlost (BufferReplay.step_moved hw.sound.1 hstep)⟩
  obtain ⟨winner', _, hlost⟩ := hinv
  exact ⟨winner', hlost⟩

def AllHanded (w : SharedWrap ι) : Prop := ∀ s, w.call s = .returned → s ∈ w.queue.handed

def Settled (w : SharedWrap ι) : Prop :=
  (∀ s, w.call s = .idle ∨ w.call s = .returned) ∧
  ∀ j, w.join j = .new .returned ∨ w.join j = .turnedAway

theorem punctual_of_handed {l : List (Event ι)} (h : Raced loads winner w)
    (hrun : Run (Step loads) AnyEvent w l u) (hall : AllHanded u) :
    Run (Step loads) Punctual w l u := by
  induction hrun generalizing winner with
  | nil w => exact .nil w
  | @cons w v u e l _ hs hrun ih =>
    obtain ⟨winner', hv, hseen⟩ := raced_step h hs
    refine .cons (fun s he j phase hj => ?_) hs (ih hv hall)
    by_contra ht
    have htaken := taken_seen h.race hj (by simpa using ht)
    have hlost : BufferReplay.Lost s (project winner' v) := by
      cases hseen with
      | hidden _ hne => exact absurd he (hne s)
      | step e' hstep he' =>
        have hpush := (he' s).mpr he
        subst hpush
        exact BufferReplay.lost_of_late h.sound.2 htaken (BufferReplay.step_moved h.sound.1 hstep)
    obtain ⟨_, hend⟩ := run_lost hv hlost hrun
    exact hend.handed (hall s hend.returned)

theorem run_raced {l : List (Event ι)} (hrun : Run (Step loads) AnyEvent initial l w) :
    ∃ winner, Raced loads winner w := by
  refine hrun.invariant (J := fun w => ∃ winner, Raced loads winner w) (fun w e u hw _ hs => ?_)
    ⟨none, raced_initial⟩
  obtain ⟨winner, hw⟩ := hw
  obtain ⟨winner', hu, _⟩ := raced_step hw hs
  exact ⟨winner', hu⟩

omit [DecidableEq ι] in
theorem winner_returned (hr : Race loads winner w) (hload : loads j) (hset : Settled w) :
    ∃ i, winner = some i ∧ loads i ∧ w.join i = .new .returned ∧
      ∀ k, k ≠ i → w.join k = .turnedAway := by
  cases winner with
  | none =>
    rcases hset.2 j with h | h
    · rcases hr.others j _ (by simp) h with h | ⟨h, _⟩ <;> cases h
    · exact absurd hload ((hr.unwon rfl).2 j h)
  | some i =>
    obtain ⟨hi, phase, hp, _, _⟩ := hr.won i rfl
    refine ⟨i, rfl, hi, (hset.2 i).resolve_right (by simp [hp]), fun k hk => ?_⟩
    refine (hset.2 k).resolve_left fun h => ?_
    rcases hr.others k _ (fun he => hk (Option.some.inj he).symm) h with h | ⟨h, _⟩ <;> cases h

theorem returned_of_handed (hw : Raced loads winner w) (hs : s ∈ w.queue.handed) :
    w.call s = .returned := by
  by_contra hc
  exact (hw.sound.2 s hc).1 hs

theorem handed_of_punctual {l : List (Event ι)} (hload : loads j)
    (hrun : Run (Step loads) Punctual initial l w) (hset : Settled w) : AllHanded w := by
  have hstart : BufferReplay.Kept (project none (initial (ι := ι))) :=
    fun s hs => by simp [project, initial] at hs
  obtain ⟨winner, hw, hkept⟩ := run_kept raced_initial hstart hrun
  obtain ⟨i, rfl, _, hreturned, _⟩ := winner_returned hw.race hload hset
  have hwait : BufferReplay.waiting (project (some i) w) = [] := by
    simp [BufferReplay.waiting, project, hreturned, JoinPhase.seen]
  intro s hs
  refine (hkept s hs).resolve_right ?_
  rw [hwait]
  exact List.not_mem_nil

/-- The first of two joins replays one buffered operation. -/
def race (s : Sent) : List (Event Bool) :=
  [.load s, .joinLock false, .lockBuffer s, .push s, .joinSwap false, .joinStore false,
    .joinRelease false, .joinLock true, .joinRead false, .joinLoad false, .joinPass true,
    .joinRelock false, .joinApply false, .joinReturn false]

omit [DecidableEq ι] in
theorem quiet_punctual (h : ∀ s, e ≠ .push s) : Punctual w e := fun s hs => absurd hs (h s)

theorem race_run (s : Sent) : ∃ w, Run (Step fun _ => True) Punctual initial (race s) w ∧
    Settled w ∧ w.queue = .real [s] ∧ ∀ t, w.call t = .returned ↔ t = s := by
  refine ⟨_, .cons (quiet_punctual (by simp)) (.load rfl) <|
    .cons (quiet_punctual (by simp)) (.joinLock rfl trivial rfl) <|
    .cons (quiet_punctual (by simp))
      (.lockBuffer (by simp [SharedWrap.setCall, SharedWrap.setJoin, initial]) rfl) <|
    .cons (fun t ht i phase hi => ?_) (.push (by simp [SharedWrap.setCall])) <|
    .cons (quiet_punctual (by simp)) (.joinSwap rfl rfl) <|
    .cons (quiet_punctual (by simp)) (.joinStore rfl) <|
    .cons (quiet_punctual (by simp)) (.joinRelease rfl) <|
    .cons (quiet_punctual (by simp)) (.joinLock rfl trivial rfl) <|
    .cons (quiet_punctual (by simp)) (.joinRead rfl rfl) <|
    .cons (quiet_punctual (by simp)) (.joinLoad rfl) <|
    .cons (quiet_punctual (by simp)) (.joinPass rfl (by simp [SharedWrap.setJoin])) <|
    .cons (quiet_punctual (by simp)) (.joinRelock rfl rfl) <|
    .cons (quiet_punctual (by simp)) (.joinApply rfl) <|
    .cons (quiet_punctual (by simp)) (.joinReturn rfl) <| .nil _,
    ⟨fun t => ?_, fun i => ?_⟩, rfl, fun t => ?_⟩
  · cases i <;> cases hi <;> rfl
  · by_cases ht : t = s
    · right
      subst ht
      simp [SharedWrap.setCall, SharedWrap.setJoin]
    · left
      simp [SharedWrap.setCall, SharedWrap.setJoin, initial, ht]
  · cases i with
    | false => exact Or.inl rfl
    | true => exact Or.inr rfl
  · by_cases ht : t = s
    · subst ht
      simp [SharedWrap.setCall, SharedWrap.setJoin]
    · simp [SharedWrap.setCall, SharedWrap.setJoin, initial, ht]

theorem one_join_hands {l : List (Event ι)} (hload : loads j)
    (hrun : Run (Step loads) AnyEvent initial l w) (hset : Settled w) :
    ∃ i, loads i ∧ w.join i = .new .returned ∧ (∀ k, k ≠ i → w.join k = .turnedAway) ∧
      w.queue.handed.Nodup ∧ (∀ s ∈ w.queue.handed, w.call s = .returned) ∧
      (AllHanded w ↔ Run (Step loads) Punctual initial l w) := by
  obtain ⟨winner, hw⟩ := run_raced hrun
  obtain ⟨i, rfl, hi, hreturned, haway⟩ := winner_returned hw.race hload hset
  exact ⟨i, hi, hreturned, haway, hw.once.of_append_left, fun s hs => returned_of_handed hw hs,
    punctual_of_handed raced_initial hrun, fun hp => handed_of_punctual hload hp hset⟩

theorem one_join_hands_race : ∃ (i : Bool) (w : SharedWrap Bool), w.join i = .new .returned ∧
    w.queue = .real [BufferReplay.remote] ∧
    (AllHanded w ↔ Run (Step fun _ => True) Punctual initial (race BufferReplay.remote) w) := by
  obtain ⟨w, hrun, hset, hq, _⟩ := race_run BufferReplay.remote
  obtain ⟨i, _, hi, _, _, _, hiff⟩ :=
    one_join_hands (j := false) trivial (hrun.weaken fun _ _ _ => trivial) hset
  exact ⟨i, w, hi, hq, hiff⟩

/-- The flag is set before `new` replays, so no operation of the replay waits for the buffer. -/
def Flagged (q : BufferReplay.QueueWrap) : Prop :=
  match q.new with
  | .loading | .queueLocked | .swapped | .returned => True
  | .loaded initialized _ _ => initialized = true ∧ q.queueInitialized = true
  | _ => q.queueInitialized = true

theorem flagged_step {q q' : BufferReplay.QueueWrap} {e : BufferReplay.Event} (h : Flagged q)
    (hs : BufferReplay.Step q e q') : Flagged q' := by
  obtain ⟨he, rfl⟩ := hs
  cases e with
  | newRelease =>
    have hnew : q.new = .stored := he
    simpa [Flagged, hnew, BufferReplay.next] using h
  | newRead => simpa [Flagged, he.1, BufferReplay.next] using h
  | newLoad =>
    obtain ⟨s, rest, hnew⟩ := he
    simpa [Flagged, hnew, BufferReplay.next] using h
  | newRelock =>
    obtain ⟨⟨s, rest, hnew⟩, _⟩ := he
    simpa [Flagged, hnew, BufferReplay.next] using h
  | newApply =>
    obtain ⟨s, rest, hnew⟩ := he
    simpa [Flagged, hnew, BufferReplay.next] using h
  | load s => exact h
  | lockQueue s => exact h
  | apply s => exact h
  | lockBuffer s => exact h
  | push s => exact h
  | newLock => trivial
  | newSwap => trivial
  | newStore => exact rfl
  | newReturn => trivial

theorem run_flagged {l : List (Event ι)} (hrun : Run (Step loads) AnyEvent initial l w) :
    ∃ winner, Raced loads winner w ∧ Flagged (project winner w) := by
  refine hrun.invariant
    (J := fun w => ∃ winner, Raced loads winner w ∧ Flagged (project winner w))
    (fun w e u hw _ hs => ?_) ⟨none, raced_initial, trivial⟩
  obtain ⟨winner, hw, hf⟩ := hw
  obtain ⟨winner', hu, hseen⟩ := raced_step hw hs
  exact ⟨winner', hu, hseen.keeps hf fun _ _ hstep _ => flagged_step hf hstep⟩

def GoesOn (loads : ι → Prop) (w : SharedWrap ι) : Prop :=
  ∃ e u, Step loads w e u ∧ ∀ s, e ≠ .load s

theorem queue_free (hl : Locks w) : w.queueLock = none ∨ GoesOn loads w := by
  cases hlock : w.queueLock with
  | none => exact Or.inl rfl
  | some h =>
    right
    have hheld := (hl.queue h).mp hlock
    cases h with
    | call s => exact ⟨_, _, .apply hheld, by simp⟩
    | join j =>
      cases hj : w.join j with
      | turnedAway => simp [QueueHeld, hj] at hheld
      | new phase =>
        cases phase with
        | queueLocked =>
          by_cases hd : w.queue = .default
          · exact ⟨_, _, .joinSwap hj hd, by simp⟩
          · exact ⟨_, _, .joinPass hj hd, by simp⟩
        | swapped => exact ⟨_, _, .joinStore hj, by simp⟩
        | stored => exact ⟨_, _, .joinRelease hj, by simp⟩
        | applying s rest => exact ⟨_, _, .joinApply hj, by simp⟩
        | _ => simp [QueueHeld, hj] at hheld

theorem replay_goes_on {phase : NewPhase} (hr : Race loads winner w) (hl : Locks w)
    (hf : Flagged (project winner w)) (hj : w.join j = .new phase)
    (hb : (JoinPhase.new phase).AtBuffer) : GoesOn loads w := by
  cases phase with
  | replaying rest =>
    cases rest with
    | nil => exact ⟨_, _, .joinReturn hj, by simp⟩
    | cons s rest => exact ⟨_, _, .joinLoad hj, by simp⟩
  | loaded initialized s rest =>
    obtain rfl := winner_of hr hj (by simp) (Or.inl (by simp))
    have hset : initialized = true := by
      simp only [Flagged, project, hj, JoinPhase.seen] at hf
      exact hf.1
    subst hset
    rcases queue_free hl with hn | h
    · exact ⟨_, _, .joinRelock hj hn, by simp⟩
    · exact h
  | applying s rest => exact ⟨_, _, .joinApply hj, by simp⟩
  | _ => cases hb

theorem buffer_free (hr : Race loads winner w) (hl : Locks w) (hf : Flagged (project winner w)) :
    w.bufferLock = none ∨ GoesOn loads w := by
  cases hlock : w.bufferLock with
  | none => exact Or.inl rfl
  | some h =>
    right
    have hheld := (hl.buffer h).mp hlock
    cases h with
    | call s => exact ⟨_, _, .push hheld, by simp⟩
    | join j =>
      cases hj : w.join j with
      | turnedAway => simp [BufferHeld, hj] at hheld
      | new phase => exact replay_goes_on hr hl hf hj (by simpa [BufferHeld, hj] using hheld)

theorem call_goes_on (hr : Race loads winner w) (hl : Locks w) (hf : Flagged (project winner w))
    (hc : w.call s ≠ .idle ∧ w.call s ≠ .returned) : GoesOn loads w := by
  cases hcall : w.call s with
  | idle => exact absurd hcall hc.1
  | loaded initialized =>
    cases initialized with
    | true =>
      rcases queue_free hl with hn | h
      · exact ⟨_, _, .lockQueue hcall hn, by simp⟩
      · exact h
    | false =>
      rcases buffer_free hr hl hf with hn | h
      · exact ⟨_, _, .lockBuffer hcall hn, by simp⟩
      · exact h
  | queueLocked => exact ⟨_, _, .apply hcall, by simp⟩
  | bufferLocked => exact ⟨_, _, .push hcall, by simp⟩
  | returned => exact absurd hcall hc.2

theorem join_goes_on {phase : NewPhase} (hr : Race loads winner w) (hl : Locks w)
    (hf : Flagged (project winner w)) (hj : w.join j = .new phase) (hp : phase ≠ .returned) :
    GoesOn loads w := by
  cases phase with
  | loading =>
    by_cases hload : loads j
    · rcases queue_free hl with hn | h
      · exact ⟨_, _, .joinLock hj hload hn, by simp⟩
      · exact h
    · exact ⟨_, _, .joinFail hj hload, by simp⟩
  | queueLocked =>
    by_cases hd : w.queue = .default
    · exact ⟨_, _, .joinSwap hj hd, by simp⟩
    · exact ⟨_, _, .joinPass hj hd, by simp⟩
  | swapped => exact ⟨_, _, .joinStore hj, by simp⟩
  | stored => exact ⟨_, _, .joinRelease hj, by simp⟩
  | released =>
    rcases buffer_free hr hl hf with hn | h
    · exact ⟨_, _, .joinRead hj hn, by simp⟩
    · exact h
  | returned => exact absurd rfl hp
  | replaying rest => exact replay_goes_on hr hl hf hj trivial
  | loaded initialized s rest => exact replay_goes_on hr hl hf hj trivial
  | applying s rest => exact replay_goes_on hr hl hf hj trivial

theorem settled_or_goes_on (hr : Race loads winner w) (hl : Locks w)
    (hf : Flagged (project winner w)) : Settled w ∨ GoesOn loads w := by
  by_contra h
  rw [not_or] at h
  obtain ⟨hset, hgo⟩ := h
  refine hset ⟨fun s => ?_, fun j => ?_⟩
  · by_contra hc
    rw [not_or] at hc
    exact hgo (call_goes_on hr hl hf hc)
  · by_contra hj
    rw [not_or] at hj
    cases hp : w.join j with
    | turnedAway => exact hj.2 hp
    | new phase => exact hgo (join_goes_on hr hl hf hp fun he => hj.1 (by rw [hp, he]))

def callLeft : CallPhase → ℕ
  | .idle => 6
  | .loaded _ => 5
  | .queueLocked | .bufferLocked => 4
  | .returned => 0

def joinLeft : JoinPhase → ℕ
  | .new .loading => 7
  | .new .queueLocked => 6
  | .new .swapped => 5
  | .new .stored => 4
  | .new .released => 3
  | .new (.replaying _) => 2
  | .new (.loaded _ _ _) => 1
  | _ => 0

theorem sum_update {α β : Type} [DecidableEq α] (t : Finset α) (f : α → β) (left : β → ℕ) {a : α}
    (ha : a ∈ t) (b : β) :
    (∑ x ∈ t, left (Function.update f a b x)) + left (f a) = (∑ x ∈ t, left (f x)) + left b := by
  have herase : ∑ x ∈ t.erase a, left (Function.update f a b x) = ∑ x ∈ t.erase a, left (f x) := by
    refine Finset.sum_congr rfl fun x hx => ?_
    rw [Function.update_of_ne (Finset.ne_of_mem_erase hx)]
  rw [← Finset.add_sum_erase t _ ha, ← Finset.add_sum_erase t (fun x => left (f x)) ha, herase,
    Function.update_self]
  omega

section Length

variable [Fintype ι]

def left (calls : Finset Sent) (winner : Option ι) (w : SharedWrap ι) : ℕ :=
  (∑ s ∈ calls, callLeft (w.call s)) + (∑ j, joinLeft (w.join j)) +
    3 * (BufferReplay.waiting (project winner w)).length

def pushes : Event ι → ℕ
  | .push _ => 1
  | _ => 0

omit [Fintype ι] in
theorem waiting_step {winner' : Option ι} (hw : Raced loads winner w)
    (hs : Seen winner winner' w u e) :
    (BufferReplay.waiting (project winner' u)).length ≤
      (BufferReplay.waiting (project winner w)).length + pushes e := by
  cases hs with
  | hidden hp _ => rw [hp]; exact Nat.le_add_right _ _
  | step e' hstep he =>
    cases BufferReplay.step_moved hw.sound.1 hstep with
    | still _ hwait _ _ _ _ => rw [hwait]; exact Nat.le_add_right _ _
    | apply _ _ hwait _ _ _ => rw [hwait]; exact Nat.le_add_right _ _
    | @push s _ _ _ hwait _ _ _ =>
      rw [(he s).mp rfl, hwait, pushes]
      split <;> simp
    | replay hwait _ _ _ _ =>
      rw [hwait, List.length_cons]
      omega

variable {calls : Finset Sent} {winner' : Option ι}

theorem left_call {phase : CallPhase} (hmem : s ∈ calls) (hj : u.join = w.join)
    (hc : u.call = Function.update w.call s phase)
    (hlt : 3 * (BufferReplay.waiting (project winner' u)).length + callLeft phase <
      3 * (BufferReplay.waiting (project winner w)).length + callLeft (w.call s)) :
    left calls winner' u < left calls winner w := by
  have hsum := sum_update calls w.call callLeft hmem phase
  simp only [left, hc, hj]
  omega

theorem left_join {phase : JoinPhase} (hc : u.call = w.call)
    (hj : u.join = Function.update w.join j phase)
    (hlt : 3 * (BufferReplay.waiting (project winner' u)).length + joinLeft phase <
      3 * (BufferReplay.waiting (project winner w)).length + joinLeft (w.join j)) :
    left calls winner' u < left calls winner w := by
  have hsum := sum_update Finset.univ w.join joinLeft (Finset.mem_univ j) phase
  simp only [left, hc, hj]
  omega

theorem left_step (hw : Raced loads winner w) (hs : Step loads w e u)
    (hin : ∀ s, w.call s ≠ .idle ∨ e = .load s → s ∈ calls) :
    ∃ winner', Raced loads winner' u ∧ left calls winner' u < left calls winner w := by
  obtain ⟨winner', hu, hseen⟩ := raced_step hw hs
  have hwait := waiting_step hw hseen
  refine ⟨winner', hu, ?_⟩
  cases hs with
  | load hc =>
    refine left_call (hin _ (Or.inr rfl)) rfl rfl ?_
    simp only [hc, callLeft, pushes] at hwait ⊢
    omega
  | lockQueue hc _ =>
    refine left_call (hin _ (Or.inl (by simp [hc]))) rfl rfl ?_
    simp only [hc, callLeft, pushes] at hwait ⊢
    omega
  | apply hc =>
    refine left_call (hin _ (Or.inl (by simp [hc]))) rfl rfl ?_
    simp only [hc, callLeft, pushes] at hwait ⊢
    omega
  | lockBuffer hc _ =>
    refine left_call (hin _ (Or.inl (by simp [hc]))) rfl rfl ?_
    simp only [hc, callLeft, pushes] at hwait ⊢
    omega
  | push hc =>
    refine left_call (hin _ (Or.inl (by simp [hc]))) rfl rfl ?_
    simp only [hc, callLeft, pushes] at hwait ⊢
    omega
  | joinFail hj _ =>
    refine left_join rfl rfl ?_
    simp only [hj, joinLeft, pushes] at hwait ⊢
    omega
  | joinLock hj _ _ =>
    refine left_join rfl rfl ?_
    simp only [hj, joinLeft, pushes] at hwait ⊢
    omega
  | joinPass hj _ =>
    refine left_join rfl rfl ?_
    simp only [hj, joinLeft, pushes] at hwait ⊢
    omega
  | joinSwap hj _ =>
    refine left_join rfl rfl ?_
    simp only [hj, joinLeft, pushes] at hwait ⊢
    omega
  | joinStore hj =>
    refine left_join rfl rfl ?_
    simp only [hj, joinLeft, pushes] at hwait ⊢
    omega
  | joinRelease hj =>
    refine left_join rfl rfl ?_
    simp only [hj, joinLeft, pushes] at hwait ⊢
    omega
  | joinRead hj _ =>
    refine left_join rfl rfl ?_
    simp only [hj, joinLeft, pushes] at hwait ⊢
    omega
  | joinLoad hj =>
    refine left_join rfl rfl ?_
    simp only [hj, joinLeft, pushes] at hwait ⊢
    omega
  | joinRelock hj _ =>
    refine left_join rfl rfl ?_
    simp only [hj, joinLeft, pushes] at hwait ⊢
    omega
  | @joinApply j s rest hj =>
    obtain rfl := winner_of hw.race hj (by simp) (Or.inl (by simp))
    have hj' : (Function.update w.join j (.new (.replaying rest))) j = .new (.replaying rest) :=
      Function.update_self ..
    obtain rfl := winner_of hu.race hj' (by simp) (Or.inl (by simp))
    refine left_join rfl rfl ?_
    have hw' : (BufferReplay.waiting (project (some j) w)).length = rest.length + 1 := by
      simp [project, BufferReplay.waiting, JoinPhase.seen, hj]
    simp only [project, BufferReplay.waiting, JoinPhase.seen, hj', hj, joinLeft,
      SharedWrap.setJoin] at hw' ⊢
    omega
  | joinReturn hj =>
    refine left_join rfl rfl ?_
    simp only [hj, joinLeft, pushes] at hwait ⊢
    omega

omit [Fintype ι] in
theorem started_step (hs : Step loads w e u) (hu : u.call s ≠ .idle) :
    w.call s ≠ .idle ∨ e = .load s := by
  have hcall : ∀ t phase, w.call t ≠ .idle → Function.update w.call t phase s ≠ .idle →
      w.call s ≠ .idle := by
    intro t phase ht hs
    by_cases hst : s = t
    · rwa [hst]
    · rwa [Function.update_of_ne hst] at hs
  cases hs with
  | @load t hc =>
    by_cases hst : s = t
    · exact Or.inr (by rw [hst])
    · exact Or.inl (by simpa [SharedWrap.setCall, Function.update_of_ne hst] using hu)
  | lockQueue hc _ => exact Or.inl (hcall _ _ (by simp [hc]) hu)
  | apply hc => exact Or.inl (hcall _ _ (by simp [hc]) hu)
  | lockBuffer hc _ => exact Or.inl (hcall _ _ (by simp [hc]) hu)
  | push hc => exact Or.inl (hcall _ _ (by simp [hc]) hu)
  | _ => exact Or.inl hu

theorem run_left {l : List (Event ι)} (hw : Raced loads winner w)
    (hrun : Run (Step loads) AnyEvent w l u) (hin : ∀ s, w.call s ≠ .idle → s ∈ calls)
    (hl : ∀ s, .load s ∈ l → s ∈ calls) : l.length ≤ left calls winner w := by
  induction hrun generalizing winner with
  | nil w => exact Nat.zero_le _
  | @cons w v u e l _ hs hrun ih =>
    obtain ⟨winner', hv, hlt⟩ := left_step hw hs fun s h =>
      h.elim (hin s) fun he => hl s (he ▸ List.mem_cons_self)
    have hstarted : ∀ s, v.call s ≠ .idle → s ∈ calls := fun s h =>
      (started_step hs h).elim (hin s) fun he => hl s (he ▸ List.mem_cons_self)
    have hrest := ih hv hstarted fun s h => hl s (List.mem_cons_of_mem _ h)
    simp only [List.length_cons]
    omega

theorem joins_finish {l : List (Event ι)} (calls : Finset Sent)
    (hl : ∀ s, .load s ∈ l → s ∈ calls) (hrun : Run (Step loads) AnyEvent initial l w) :
    l.length ≤ 6 * calls.card + 7 * Fintype.card ι ∧
      (Settled w ∨ ∃ e u, Step loads w e u ∧ ∀ s, e ≠ .load s) := by
  obtain ⟨winner, hw, hf⟩ := run_flagged hrun
  refine ⟨?_, settled_or_goes_on hw.race hw.locks hf⟩
  have hlen := run_left raced_initial hrun (by simp [initial]) hl
  simpa [left, initial, callLeft, joinLeft, project, BufferReplay.waiting, mul_comm] using hlen

theorem joins_finish_race : ∃ w : SharedWrap Bool, w.queue = .real [BufferReplay.remote] ∧
    (race BufferReplay.remote).length ≤ 6 * 1 + 7 * 2 ∧
    (Settled w ∨ ∃ e u, Step (fun _ => True) w e u ∧ ∀ s, e ≠ .load s) := by
  obtain ⟨w, hrun, _, hq, _⟩ := race_run BufferReplay.remote
  exact ⟨w, hq, joins_finish {BufferReplay.remote} (by simp [race])
    (hrun.weaken fun _ _ _ => trivial)⟩

end Length

end Model

end JoinRaces
