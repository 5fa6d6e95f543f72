import Shario.CrdtTypes
import Shario.GuardedRuns
import Mathlib.Logic.Function.Basic

/-! `QueueWrap` of `queue_wrap.rs` while it is initialised: calls that hand over or buffer
their operation, and the one `new` that installs the real queue and replays the buffer.
A step is what happens between two awaits. -/
namespace BufferReplay

open CrdtTypes GuardedRuns

/-- The operation of one call; the number keeps two sends of one operation apart. -/
structure Sent where
  number : ℕ
  op : NetworkOp
  deriving DecidableEq, Repr

inductive Party where
  | call (s : Sent)
  | new
  deriving DecidableEq, Repr

/-- Where a call of `add_network_operation` or `remove_network_operation` is. -/
inductive CallPhase where
  | idle
  | loaded (initialized : Bool)
  | queueLocked
  | bufferLocked
  | returned
  deriving DecidableEq, Repr

/-- Where `new` is; from `replaying` on it holds the buffer's read lock. -/
inductive NewPhase where
  | loading
  | queueLocked
  | swapped
  | stored
  | released
  | replaying (rest : List Sent)
  | loaded (initialized : Bool) (s : Sent) (rest : List Sent)
  | applying (s : Sent) (rest : List Sent)
  | returned
  deriving DecidableEq, Repr

/-- The default queue, whose content `new` overwrites, or the real one and what it was handed. -/
inductive Queue where
  | default
  | real (handed : List Sent)
  deriving DecidableEq, Repr

def Queue.hand : Queue → Sent → Queue
  | .default, _ => .default
  | .real handed, s => .real (handed ++ [s])

def Queue.handed : Queue → List Sent
  | .default => []
  | .real handed => handed

structure QueueWrap where
  queue : Queue
  queueInitialized : Bool
  buffer : List Sent
  queueLock : Option Party
  bufferLock : Option Party
  call : Sent → CallPhase
  new : NewPhase

def initial : QueueWrap := ⟨.default, false, [], none, none, fun _ => .idle, .loading⟩

inductive Event where
  | load (s : Sent)
  | lockQueue (s : Sent)
  | apply (s : Sent)
  | lockBuffer (s : Sent)
  | push (s : Sent)
  | newLock
  | newSwap
  | newStore
  | newRelease
  | newRead
  | newLoad
  | newRelock
  | newApply
  | newReturn
  deriving DecidableEq, Repr

def Enabled (w : QueueWrap) : Event → Prop
  | .load s => w.call s = .idle
  | .lockQueue s => w.call s = .loaded true ∧ w.queueLock = none
  | .apply s => w.call s = .queueLocked
  | .lockBuffer s => w.call s = .loaded false ∧ w.bufferLock = none
  | .push s => w.call s = .bufferLocked
  | .newLock => w.new = .loading ∧ w.queueLock = none
  -- `guard.network_add_callback.is_none()`
  | .newSwap => w.new = .queueLocked ∧ w.queue = .default
  | .newStore => w.new = .swapped
  | .newRelease => w.new = .stored
  | .newRead => w.new = .released ∧ w.bufferLock = none
  | .newLoad => ∃ s rest, w.new = .replaying (s :: rest)
  -- with the flag unset the call would wait for the buffer that `new` itself holds
  | .newRelock => (∃ s rest, w.new = .loaded true s rest) ∧ w.queueLock = none
  | .newApply => ∃ s rest, w.new = .applying s rest
  | .newReturn => w.new = .replaying []

def next (w : QueueWrap) : Event → QueueWrap
  | .load s => { w with call := Function.update w.call s (.loaded w.queueInitialized) }
  | .lockQueue s =>
    { w with queueLock := some (.call s), call := Function.update w.call s .queueLocked }
  | .apply s =>
    { w with
      queue := w.queue.hand s
      queueLock := none
      call := Function.update w.call s .returned }
  | .lockBuffer s =>
    { w with bufferLock := some (.call s), call := Function.update w.call s .bufferLocked }
  | .push s =>
    { w with
      buffer := w.buffer ++ [s]
      bufferLock := none
      call := Function.update w.call s .returned }
  | .newLock => { w with queueLock := some .new, new := .queueLocked }
  | .newSwap => { w with queue := .real [], new := .swapped }
  | .newStore => { w with queueInitialized := true, new := .stored }
  | .newRelease => { w with queueLock := none, new := .released }
  | .newRead => { w with bufferLock := some .new, new := .replaying w.buffer }
  | .newLoad =>
    match w.new with
    | .replaying (s :: rest) => { w with new := .loaded w.queueInitialized s rest }
    | _ => w
  | .newRelock =>
    match w.new with
    | .loaded _ s rest => { w with queueLock := some .new, new := .applying s rest }
    | _ => w
  | .newApply =>
    match w.new with
    | .applying s rest =>
      { w with queue := w.queue.hand s, queueLock := none, new := .replaying rest }
    | _ => w
  | .newReturn => { w with bufferLock := none, new := .returned }

def Step (w : QueueWrap) (e : Event) (u : QueueWrap) : Prop := Enabled w e ∧ u = next w e

def NewPhase.taken : NewPhase → Bool
  | .replaying _ | .loaded _ _ _ | .applying _ _ | .returned => true
  | _ => false

/-- What `new` will still hand over. -/
def waiting (w : QueueWrap) : List Sent :=
  match w.new with
  | .replaying rest => rest
  | .loaded _ s rest | .applying s rest => s :: rest
  | .returned => []
  | _ => w.buffer

/-- `new` and all the calls have returned. -/
def Settled (w : QueueWrap) : Prop :=
  w.new = .returned ∧ ∀ s, w.call s = .idle ∨ w.call s = .returned

def AllHanded (w : QueueWrap) : Prop := ∀ s, w.call s = .returned → s ∈ w.queue.handed

def AnyCall (_ : QueueWrap) (_ : Event) : Prop := True

/-- No call that found the flag unset pushes once `new` has taken the buffer. -/
def Punctual (w : QueueWrap) (e : Event) : Prop := ∀ s, e = .push s → w.new.taken = false

/-- An operation leaves its call for the queue or for the buffer, or the replay hands it over;
nothing else moves one. -/
inductive Moved (w : QueueWrap) : Event → QueueWrap → Prop where
  | still {e u} : u.queue.handed = w.queue.handed → waiting u = waiting w → u.buffer = w.buffer →
      (∀ t, u.call t = .returned ↔ w.call t = .returned) →
      (w.new.taken = true → u.new.taken = true) → (∀ s, e ≠ .push s) → Moved w e u
  | apply {s u} : w.call s ≠ .returned → u.queue.handed = w.queue.handed ++ [s] →
      waiting u = waiting w → u.buffer = w.buffer →
      (∀ t, u.call t = .returned ↔ w.call t = .returned ∨ t = s) → u.new = w.new →
      Moved w (.apply s) u
  | push {s u} : w.call s ≠ .returned → u.queue.handed = w.queue.handed →
      waiting u = (if w.new.taken then waiting w else waiting w ++ [s]) →
      u.buffer = w.buffer ++ [s] → (∀ t, u.call t = .returned ↔ w.call t = .returned ∨ t = s) →
      u.new = w.new → Moved w (.push s) u
  | replay {s u} : waiting w = s :: waiting u → u.queue.handed = w.queue.handed ++ [s] →
      u.buffer = w.buffer → u.call = w.call → u.new.taken = true → Moved w .newApply u

section Steps

variable {w u : QueueWrap} {e : Event} {s : Sent}

/-- The real queue is in place before anything can be handed over. -/
structure Installed (w : QueueWrap) : Prop where
  flag : w.queueInitialized = true → w.queue ≠ .default
  call : ∀ s, w.call s = .loaded true ∨ w.call s = .queueLocked → w.queue ≠ .default
  new : w.new ≠ .loading → w.new ≠ .queueLocked → w.queue ≠ .default

theorem hand_installed {q : Queue} (h : q ≠ .default) (s : Sent) :
    q.hand s ≠ .default ∧ (q.hand s).handed = q.handed ++ [s] := by
  cases q with
  | default => exact absurd rfl h
  | real handed => exact ⟨by simp [Queue.hand], rfl⟩

theorem call_moved {p r : CallPhase} {t : Sent} (h : Function.update w.call s r t = p)
    (hp : r ≠ p) : w.call t = p ∧ t ≠ s := by
  by_cases ht : t = s
  · subst ht
    rw [Function.update_self] at h
    exact absurd h hp
  · rw [Function.update_of_ne ht] at h
    exact ⟨h, ht⟩

theorem installed_initial : Installed initial := by
  constructor <;> simp [initial]

theorem installed_step (h : Installed w) (hs : Step w e u) : Installed u := by
  obtain ⟨he, rfl⟩ := hs
  obtain ⟨hf, hc, hn⟩ := h
  cases e with
  | load s =>
    refine ⟨hf, fun t ht => ?_, hn⟩
    by_cases hts : t = s
    · subst hts
      simp only [next, Function.update_self, CallPhase.loaded.injEq, reduceCtorEq, or_false] at ht
      exact hf ht
    · simp only [next, Function.update_of_ne hts] at ht
      exact hc t ht
  | lockQueue s =>
    refine ⟨hf, fun t ht => ?_, hn⟩
    by_cases hts : t = s
    · subst hts
      exact hc t (Or.inl he.1)
    · simp only [next, Function.update_of_ne hts] at ht
      exact hc t ht
  | apply s =>
    have hq := (hand_installed (hc s (Or.inr he)) s).1
    exact ⟨fun _ => hq, fun _ _ => hq, fun _ _ => hq⟩
  | lockBuffer s =>
    refine ⟨hf, fun t ht => hc t ?_, hn⟩
    exact ht.imp (fun h => (call_moved h (by simp)).1) fun h => (call_moved h (by simp)).1
  | push s =>
    refine ⟨hf, fun t ht => hc t ?_, hn⟩
    exact ht.imp (fun h => (call_moved h (by simp)).1) fun h => (call_moved h (by simp)).1
  | newLock => exact ⟨hf, hc, fun _ h => absurd rfl h⟩
  | newSwap =>
    have hq : Queue.real [] ≠ .default := by simp
    exact ⟨fun _ => hq, fun _ _ => hq, fun _ _ => hq⟩
  | newStore =>
    have hq := hn (by simp [show w.new = .swapped from he]) (by simp [show w.new = .swapped from he])
    exact ⟨fun _ => hq, fun _ _ => hq, fun _ _ => hq⟩
  | newRelease =>
    have hnew : w.new = .stored := he
    have hq := hn (by simp [hnew]) (by simp [hnew])
    exact ⟨fun _ => hq, fun _ _ => hq, fun _ _ => hq⟩
  | newRead =>
    have hq := hn (by simp [he.1]) (by simp [he.1])
    exact ⟨fun _ => hq, fun _ _ => hq, fun _ _ => hq⟩
  | newLoad =>
    obtain ⟨s, rest, hnew⟩ := he
    have hq := hn (by simp [hnew]) (by simp [hnew])
    simp only [next, hnew]
    exact ⟨fun _ => hq, fun _ _ => hq, fun _ _ => hq⟩
  | newRelock =>
    obtain ⟨⟨s, rest, hnew⟩, _⟩ := he
    have hq := hn (by simp [hnew]) (by simp [hnew])
    simp only [next, hnew]
    exact ⟨fun _ => hq, fun _ _ => hq, fun _ _ => hq⟩
  | newApply =>
    obtain ⟨s, rest, hnew⟩ := he
    have hq := (hand_installed (hn (by simp [hnew]) (by simp [hnew])) s).1
    simp only [next, hnew]
    exact ⟨fun _ => hq, fun _ _ => hq, fun _ _ => hq⟩
  | newReturn =>
    have hnew : w.new = .replaying [] := he
    have hq := hn (by simp [hnew]) (by simp [hnew])
    exact ⟨fun _ => hq, fun _ _ => hq, fun _ _ => hq⟩

theorem returned_update {r : CallPhase} (hr : r ≠ .returned) (hw : w.call s ≠ .returned)
    (t : Sent) : Function.update w.call s r t = .returned ↔ w.call t = .returned := by
  by_cases ht : t = s
  · subst ht
    simp [hr, hw]
  · rw [Function.update_of_ne ht]

theorem returned_update_self (t : Sent) :
    Function.update w.call s .returned t = .returned ↔ w.call t = .returned ∨ t = s := by
  by_cases ht : t = s
  · subst ht
    simp
  · simp [ht]

theorem waiting_untaken (h : w.new.taken = false) : waiting w = w.buffer := by
  unfold waiting
  cases hn : w.new <;> simp_all [NewPhase.taken]

theorem step_moved (h : Installed w) (hs : Step w e u) : Moved w e u := by
  obtain ⟨he, rfl⟩ := hs
  obtain ⟨_, hc, hn⟩ := h
  cases e with
  | load s =>
    have hw : w.call s ≠ .returned := by simp [show w.call s = .idle from he]
    exact .still rfl rfl rfl (returned_update (by simp) hw) id (by simp)
  | lockQueue s =>
    exact .still rfl rfl rfl (returned_update (by simp) (by simp [he.1])) id (by simp)
  | apply s =>
    have hcall : w.call s = .queueLocked := he
    have hq := (hand_installed (hc s (Or.inr he)) s).2
    exact .apply (by simp [hcall]) hq rfl rfl returned_update_self rfl
  | lockBuffer s =>
    exact .still rfl rfl rfl (returned_update (by simp) (by simp [he.1])) id (by simp)
  | push s =>
    have hcall : w.call s = .bufferLocked := he
    refine .push (by simp [hcall]) rfl ?_ rfl returned_update_self rfl
    cases ht : w.new.taken with
    | true => cases hnew : w.new <;> simp_all [waiting, next, NewPhase.taken]
    | false =>
      have hu : (next w (.push s)).new.taken = false := ht
      rw [waiting_untaken ht, waiting_untaken hu]
      rfl
  | newLock =>
    refine .still rfl ?_ rfl (fun _ => Iff.rfl) ?_ (by simp)
    · simp [waiting, next, he.1]
    · simp [he.1, NewPhase.taken]
  | newSwap =>
    refine .still ?_ ?_ rfl (fun _ => Iff.rfl) ?_ (by simp)
    · simp [next, he.2, Queue.handed]
    · simp [waiting, next, he.1]
    · simp [he.1, NewPhase.taken]
  | newStore =>
    have hnew : w.new = .swapped := he
    refine .still rfl ?_ rfl (fun _ => Iff.rfl) ?_ (by simp)
    · simp [waiting, next, hnew]
    · simp [hnew, NewPhase.taken]
  | newRelease =>
    have hnew : w.new = .stored := he
    refine .still rfl ?_ rfl (fun _ => Iff.rfl) ?_ (by simp)
    · simp [waiting, next, hnew]
    · simp [hnew, NewPhase.taken]
  | newRead =>
    refine .still rfl ?_ rfl (fun _ => Iff.rfl) ?_ (by simp)
    · simp [waiting, next, he.1]
    · simp [he.1, NewPhase.taken]
  | newLoad =>
    obtain ⟨s, rest, hnew⟩ := he
    refine .still ?_ ?_ ?_ (fun t => ?_) ?_ (by simp)
    all_goals simp [waiting, next, hnew, NewPhase.taken]
  | newRelock =>
    obtain ⟨⟨s, rest, hnew⟩, _⟩ := he
    refine .still ?_ ?_ ?_ (fun t => ?_) ?_ (by simp)
    all_goals simp [waiting, next, hnew, NewPhase.taken]
  | newApply =>
    obtain ⟨s, rest, hnew⟩ := he
    have hq := (hand_installed (hn (by simp [hnew]) (by simp [hnew])) s).2
    refine .replay (s := s) ?_ ?_ ?_ ?_ ?_
    · simp [waiting, next, hnew]
    · simpa [next, hnew] using hq
    all_goals simp [next, hnew, NewPhase.taken]
  | newReturn =>
    have hnew : w.new = .replaying [] := he
    refine .still rfl ?_ rfl (fun _ => Iff.rfl) ?_ (by simp)
    · simp [waiting, next, hnew]
    · simp [next, NewPhase.taken]

/-- A call's operation is nowhere before the call has returned. -/
def Unsent (w : QueueWrap) : Prop :=
  ∀ s, w.call s ≠ .returned → s ∉ w.queue.handed ∧ s ∉ w.buffer ∧ s ∉ waiting w

/-- What a returned call sent is handed over, or `new` will hand it over. -/
def Kept (w : QueueWrap) : Prop :=
  ∀ s, w.call s = .returned → s ∈ w.queue.handed ∨ s ∈ waiting w

/-- The operation is in a buffer that nobody reads again. -/
structure Lost (s : Sent) (w : QueueWrap) : Prop where
  returned : w.call s = .returned
  handed : s ∉ w.queue.handed
  waiting : s ∉ waiting w
  taken : w.new.taken = true

theorem unsent_moved (h : Unsent w) (hm : Moved w e u) : Unsent u := by
  intro t ht
  cases hm with
  | still hh hw hb hc _ _ =>
    rw [hh, hw, hb]
    exact h t fun hr => ht ((hc t).mpr hr)
  | @apply s _ _ hh hw hb hc _ =>
    have hold := h t fun hr => ht ((hc t).mpr (Or.inl hr))
    have hne : t ≠ s := fun he => ht ((hc t).mpr (Or.inr he))
    rw [hh, hw, hb]
    simp [hold, hne]
  | @push s _ _ hh hw hb hc _ =>
    have hold := h t fun hr => ht ((hc t).mpr (Or.inl hr))
    have hne : t ≠ s := fun he => ht ((hc t).mpr (Or.inr he))
    rw [hh, hw, hb]
    cases w.new.taken <;> simp [hold, hne]
  | @replay s _ hw hh hb hc _ =>
    obtain ⟨hold, hbuf, hwait⟩ := h t (hc ▸ ht)
    rw [hw, List.mem_cons, not_or] at hwait
    rw [hh, hb]
    simp [hold, hbuf, hwait]

theorem kept_moved (h : Kept w) (hp : Punctual w e) (hm : Moved w e u) : Kept u := by
  intro t ht
  cases hm with
  | still hh hw _ hc _ _ =>
    rw [hh, hw]
    exact h t ((hc t).mp ht)
  | @apply s _ _ hh hw _ hc _ =>
    rw [hh, hw, List.mem_append, List.mem_singleton]
    rcases (hc t).mp ht with ht | rfl
    · exact (h t ht).imp Or.inl id
    · exact Or.inl (Or.inr rfl)
  | @push s _ _ hh hw _ hc _ =>
    rw [hp s rfl, if_neg (by simp)] at hw
    rw [hh, hw, List.mem_append, List.mem_singleton]
    rcases (hc t).mp ht with ht | rfl
    · exact (h t ht).imp id Or.inl
    · exact Or.inr (Or.inr rfl)
  | @replay s _ hw hh _ hc _ =>
    rw [hh, List.mem_append, List.mem_singleton]
    rcases h t (hc ▸ ht) with ht | ht
    · exact Or.inl (Or.inl ht)
    · rw [hw] at ht
      rcases List.mem_cons.mp ht with rfl | ht
      · exact Or.inl (Or.inr rfl)
      · exact Or.inr ht

theorem lost_moved (h : Lost s w) (hm : Moved w e u) : Lost s u := by
  obtain ⟨hr, hh, hw, ht⟩ := h
  cases hm with
  | still hh' hw' _ hc hn _ => exact ⟨(hc s).mpr hr, hh' ▸ hh, hw' ▸ hw, hn ht⟩
  | @apply t _ hnr hh' hw' _ hc hn =>
    have hne : s ≠ t := fun he => hnr (he ▸ hr)
    refine ⟨(hc s).mpr (Or.inl hr), ?_, hw' ▸ hw, hn ▸ ht⟩
    rw [hh']
    simp [hh, hne]
  | @push t _ hnr hh' hw' _ hc hn =>
    rw [if_pos ht] at hw'
    exact ⟨(hc s).mpr (Or.inl hr), hh' ▸ hh, hw' ▸ hw, hn ▸ ht⟩
  | @replay t _ hw' hh' _ hc hn =>
    rw [hw', List.mem_cons, not_or] at hw
    refine ⟨hc ▸ hr, ?_, hw.2, hn⟩
    rw [hh']
    simp [hh, hw.1]

theorem lost_of_late (h : Unsent w) (ht : w.new.taken = true) (hm : Moved w (.push s) u) :
    Lost s u := by
  cases hm with
  | still _ _ _ _ _ hne => exact absurd rfl (hne s)
  | push hnr hh hw _ hc hn =>
    obtain ⟨hold, _, hwait⟩ := h s hnr
    rw [if_pos ht] at hw
    exact ⟨(hc s).mpr (Or.inr rfl), hh ▸ hold, hw ▸ hwait, hn ▸ ht⟩

def Sound (w : QueueWrap) : Prop := Installed w ∧ Unsent w

theorem sound_initial : Sound initial :=
  ⟨installed_initial, fun s _ => by simp [initial, Queue.handed, waiting]⟩

theorem sound_step (h : Sound w) (hs : Step w e u) : Sound u :=
  ⟨installed_step h.1 hs, unsent_moved h.2 (step_moved h.1 hs)⟩

theorem kept_run {l : List Event} (hrun : Run Step Punctual initial l w) : Kept w := by
  have hkept : Sound w ∧ Kept w := by
    refine hrun.invariant (J := fun w => Sound w ∧ Kept w) (fun w e u h hp hs => ?_)
      ⟨sound_initial, fun s hs => by simp [initial] at hs⟩
    exact ⟨sound_step h.1 hs, kept_moved h.2 hp (step_moved h.1.1 hs)⟩
  exact hkept.2

theorem lost_run {l : List Event} (hw : Sound w) (h : Lost s w) (hrun : Run Step AnyCall w l u) :
    Lost s u := by
  have hlost : Sound u ∧ Lost s u := by
    refine hrun.invariant (J := fun w => Sound w ∧ Lost s w) (fun w e u h _ hs => ?_) ⟨hw, h⟩
    exact ⟨sound_step h.1 hs, lost_moved h.2 (step_moved h.1.1 hs)⟩
  exact hlost.2

theorem punctual_of_handed {l : List Event} (hw : Sound w) (hrun : Run Step AnyCall w l u)
    (h : AllHanded u) : Run Step Punctual w l u := by
  induction hrun with
  | nil w => exact .nil w
  | @cons w v u e l _ hs hrun ih =>
    have hv := sound_step hw hs
    refine .cons (fun s he => ?_) hs (ih hv h)
    subst he
    by_contra ht
    have hlost := lost_run hv (lost_of_late hw.2 (by simpa using ht) (step_moved hw.1 hs)) hrun
    exact hlost.handed (h s hlost.returned)

theorem handed_iff_punctual {l : List Event} (hrun : Run Step AnyCall initial l w)
    (hset : Settled w) : AllHanded w ↔ Run Step Punctual initial l w := by
  refine ⟨punctual_of_handed sound_initial hrun, fun hp s hs => ?_⟩
  have hkept := kept_run hp s hs
  simpa [waiting, hset.1] using hkept

end Steps

def remote : Sent := ⟨0, .remove ⟨[], 1, 0, 0⟩⟩

def early : List Event :=
  [.load remote, .lockBuffer remote, .push remote, .newLock, .newSwap, .newStore, .newRelease,
    .newRead, .newLoad, .newRelock, .newApply, .newReturn]

/-- `new` comes between its look at the flag and its push. -/
def late : List Event :=
  [.load remote, .newLock, .newSwap, .newStore, .newRelease, .newRead, .newReturn,
    .lockBuffer remote, .push remote]

theorem early_run : Run Step AnyCall initial early (early.foldl next initial) :=
  .cons trivial ⟨rfl, rfl⟩ <| .cons trivial ⟨⟨rfl, rfl⟩, rfl⟩ <| .cons trivial ⟨rfl, rfl⟩ <|
    .cons trivial ⟨⟨rfl, rfl⟩, rfl⟩ <| .cons trivial ⟨⟨rfl, rfl⟩, rfl⟩ <|
    .cons trivial ⟨rfl, rfl⟩ <| .cons trivial ⟨rfl, rfl⟩ <| .cons trivial ⟨⟨rfl, rfl⟩, rfl⟩ <|
    .cons trivial ⟨⟨_, _, rfl⟩, rfl⟩ <| .cons trivial ⟨⟨⟨_, _, rfl⟩, rfl⟩, rfl⟩ <|
    .cons trivial ⟨⟨_, _, rfl⟩, rfl⟩ <| .cons trivial ⟨rfl, rfl⟩ <| .nil _

theorem late_run : Run Step AnyCall initial late (late.foldl next initial) :=
  .cons trivial ⟨rfl, rfl⟩ <| .cons trivial ⟨⟨rfl, rfl⟩, rfl⟩ <| .cons trivial ⟨⟨rfl, rfl⟩, rfl⟩ <|
    .cons trivial ⟨rfl, rfl⟩ <| .cons trivial ⟨rfl, rfl⟩ <| .cons trivial ⟨⟨rfl, rfl⟩, rfl⟩ <|
    .cons trivial ⟨rfl, rfl⟩ <| .cons trivial ⟨⟨rfl, rfl⟩, rfl⟩ <| .cons trivial ⟨rfl, rfl⟩ <|
    .nil _

theorem late_settled : Settled (late.foldl next initial) := by
  refine ⟨rfl, fun s => ?_⟩
  by_cases hs : s = remote
  · exact Or.inr (by rw [hs]; rfl)
  · exact Or.inl (by simp [late, next, initial, hs])

theorem early_settled : Settled (early.foldl next initial) := by
  refine ⟨rfl, fun s => ?_⟩
  by_cases hs : s = remote
  · exact Or.inr (by rw [hs]; rfl)
  · exact Or.inl (by simp [early, next, initial, hs])

theorem handed_iff_punctual_early : ∃ w, w.queue = .real [remote] ∧
    (AllHanded w ↔ Run Step Punctual initial early w) :=
  ⟨_, rfl, handed_iff_punctual early_run early_settled⟩

/-- The late push stays in the buffer. -/
theorem late_push_lost : ¬ ∀ (l : List Event) (w : QueueWrap), Run Step AnyCall initial l w →
    Settled w → AllHanded w := by
  intro h
  have hin : remote ∈ ([] : List Sent) := h late _ late_run late_settled remote rfl
  exact absurd hin (by simp)

end BufferReplay
