import Shario.SocketRuns

/-! The channel of `main.rs` between the callbacks of the queue and the gossip. An IDE handler
keeps the queue while it sends, and the task that takes from the channel first hydrates the
queue. -/
namespace BroadcastChannel

open CrdtTypes FileTree FilePlacement FileSafety DirectoryTree ShareQueue TreeCalls QueueSteps
  IdeSteps QueueRuns DeliveryRuns GuardedRuns
open PeerSession (Edit broadcast issued issued_fire queueIde_issued enlisted_issued retried_issued)
open SocketBench (Serving served_add)
open TextSplices (text)

/-- Where the handler of an `ide-add` or a `remove` is. -/
inductive HandlerPhase where
  | idle
  | waiting
  | sending (rest : List NetworkOp)
  | returned

/-- The task that `main` spawns, in its loop over the peers or over the channel. -/
inductive TaskPhase where
  | hydrating (rest : List NetworkOp)
  | broadcasting

structure Server (ι : Type) where
  queue : SharQueue
  queueLock : Option ι
  channel : List NetworkOp
  /-- What the gossip has been given. -/
  gossip : List NetworkOp
  handler : ι → HandlerPhase
  task : TaskPhase

inductive Event (ι : Type) where
  | emit (i : ι)
  | lock (i : ι)
  | send (i : ι)
  | finish (i : ι)
  | answer (ops : List NetworkOp)
  | hydrate (op : NetworkOp)
  | subscribe
  | forward
  | hear (item : NetworkOp)

/-- `mpsc::channel(300)` -/
def channelSize : ℕ := 300

/-- The joined server, before it has asked a peer. -/
def start {ι : Type} (q : SharQueue) : Server ι :=
  ⟨q, none, [], [], fun _ => .idle, .hydrating []⟩

section Model

variable {ι : Type} [DecidableEq ι]

def Server.setHandler (w : Server ι) (i : ι) (phase : HandlerPhase) : Server ι :=
  { w with handler := Function.update w.handler i phase }

/-- `edit i` is what handler `i` was sent. -/
inductive Step (edit : ι → Edit) (w : Server ι) : Event ι → Server ι → Prop where
  | emit {i} : w.handler i = .idle → Step edit w (.emit i) (w.setHandler i .waiting)
  | lock {i q} : w.handler i = .waiting → w.queueLock = none → (edit i).call.apply w.queue = some q →
      Step edit w (.lock i)
        { w.setHandler i (.sending ((issued q).drop (issued w.queue).length)) with
          queue := q, queueLock := some i }
  -- `producer.send(..).await` inside of a callback
  | send {i op rest} : w.handler i = .sending (op :: rest) → w.channel.length < channelSize →
      Step edit w (.send i) { w.setHandler i (.sending rest) with channel := w.channel ++ [op] }
  | finish {i} : w.handler i = .sending [] →
      Step edit w (.finish i) { w.setHandler i .returned with queueLock := none }
  | answer {ops} : w.task = .hydrating [] → Step edit w (.answer ops) { w with task := .hydrating ops }
  -- a network operation has the queue and gives it back, and waits for nothing in between
  | hydrate {op rest q} : w.task = .hydrating (op :: rest) → w.queueLock = none →
      deliver w.queue op = some q →
      Step edit w (.hydrate op) { w with queue := q, task := .hydrating rest }
  | subscribe : w.task = .hydrating [] → Step edit w .subscribe { w with task := .broadcasting }
  | forward {op rest} : w.task = .broadcasting → w.channel = op :: rest →
      Step edit w .forward { w with channel := rest, gossip := w.gossip ++ [op] }
  -- `iroh_gossip_subscriber`, also with the answer of a new neighbour
  | hear {item q} : w.task = .broadcasting → w.queueLock = none → deliver w.queue item = some q →
      Step edit w (.hear item) { w with queue := q }

def Event.call (edit : ι → Edit) : Event ι → Option QueueCall
  | .lock i => some (edit i).call
  | .hydrate op => some (.network op)
  | .hear item => some (.network item)
  | _ => none

def AnyEvent (_ : Server ι) (_ : Event ι) : Prop := True

def HandlerPhase.unsent : HandlerPhase → List NetworkOp
  | .sending rest => rest
  | _ => []

/-- What the handler that has the queue has not sent. -/
def Server.unsent (w : Server ι) : List NetworkOp :=
  match w.queueLock with
  | some i => (w.handler i).unsent
  | none => []

structure Flowing (q₀ : SharQueue) (w : Server ι) : Prop where
  files : AllFiles Sound w.queue.tree
  idle : Idle w.queue
  lock : ∀ i, w.queueLock = some i ↔ ∃ rest, w.handler i = .sending rest
  flow : issued w.queue = issued q₀ ++ w.gossip ++ w.channel ++ w.unsent
  size : w.channel.length ≤ channelSize
  silent : ∀ rest, w.task = .hydrating rest → w.gossip = []

section Log

variable {q q' : SharQueue}

theorem deliver_issued {item : NetworkOp} (hs : AllFiles Sound q.tree) (hidle : Idle q)
    (h : deliver q item = some q') : issued q' = issued q := by
  refine (deliver_keeps (J := fun p => AllFiles Sound p.tree ∧ issued p = issued q)
    (fun p hp => hp.1) (fun p i p₁ p₂ hp hpop _ hr => ?_) hidle.network ⟨hs, rfl⟩ h).1.2
  obtain ⟨rest, _, rfl⟩ := pop_eq hpop
  refine ⟨retried_keeps (P := AllFiles Sound) (fun _ _ _ _ _ hs ha => ha.sound hs)
    (fun _ _ _ _ _ hs hx hr => hr.sound hx hs) (q := { p with networkWorklist := rest }) hp.1 hr, ?_⟩
  exact (retried_issued hr).trans hp.2

theorem held_issued {p p' : SharQueue} {op : IdeAdd} (hs : AllFiles Sound p.tree)
    (h : Held p op p') : AllFiles Sound p'.tree ∧ issued p' = issued p := by
  cases h with
  | untagged _ _ => exact ⟨hs, rfl⟩
  | repeated _ _ ht => exact ⟨ht.sound hs, rfl⟩
  | early _ _ ht => exact ⟨ht.sound hs, rfl⟩

theorem call_issued {e : Edit} (hs : AllFiles Sound q.tree) (h : e.call.apply q = some q') :
    issued q <+: issued q' := by
  cases e with
  | add op =>
    have hfirst : ∀ n, AllFiles Sound (enlisted q op n).tree ∧ issued (enlisted q op n) = issued q :=
      fun n => ⟨by rwa [enlisted_tree], enlisted_issued q op n⟩
    refine (addIde_invariant (J := fun p => AllFiles Sound p.tree ∧ issued q <+: issued p)
      (fun p hp => hp.1) (fun p a b hp => ⟨hp.1, ?_⟩) (fun n p _ hh => ?_)
      (fun n x parent pos t _ hl => ⟨?_, ?_⟩) (fun p i p₁ p₂ hp hpop _ hr => ?_) hs h).1.2
    · rw [issued_fire]
      exact hp.2.trans (List.prefix_append _ _)
    · obtain ⟨hs', hi⟩ := held_issued (hfirst n).1 hh
      exact ⟨hs', by rw [hi, (hfirst n).2]⟩
    · rw [queueIde_tree]
      exact hl.added.sound (hfirst n).1
    · have hsame : issued (withTree (enlisted q op n) t) = issued (enlisted q op n) := rfl
      rw [queueIde_issued, hsame, (hfirst n).2]
    · obtain ⟨rest, _, rfl⟩ := popIde_eq hpop
      cases hr with
      | held hh =>
        obtain ⟨hs', hi⟩ := held_issued (p := { p with ideWorklist := rest }) hp.1 hh
        exact ⟨hs', hi ▸ hp.2⟩
      | @landed x parent pos t hl =>
        constructor
        · rw [fire_tree, queueIde_tree]
          exact hl.added.sound hp.1
        · rw [issued_fire, queueIde_issued]
          exact hp.2.trans (List.prefix_append _ _)
  | remove op =>
    rcases removeIde_cases hs op with ⟨q₁, hq₁, hr⟩ | ⟨hnone, _⟩
    · obtain rfl := Option.some.inj (hq₁.symm.trans h)
      cases hr with
      | fallen _ _ =>
        rw [issued_fire]
        exact List.prefix_append _ _
      | _ => exact List.prefix_rfl
    · exact absurd (hnone.symm.trans h) (by simp)

end Log

variable {edit : ι → Edit} {q₀ : SharQueue} {w u : Server ι} {e : Event ι} {i : ι}

omit [DecidableEq ι] in
theorem flowing_start (hs : AllFiles Sound q₀.tree) (hidle : Idle q₀) :
    Flowing q₀ (start (ι := ι) q₀) :=
  ⟨hs, hidle, fun i => by simp [start], by simp [start, Server.unsent], Nat.zero_le _,
    fun _ _ => rfl⟩

omit [DecidableEq ι] in
theorem call_kept (call : QueueCall) {q : SharQueue} (h : Flowing q₀ w)
    (hq : call.apply w.queue = some q) : AllFiles Sound q.tree ∧ Idle q :=
  call_keeps (P := AllFiles Sound) (fun _ hs => hs) (fun _ _ _ _ _ hs ha => ha.sound hs)
    (fun _ _ _ _ _ hs hx hr => hr.sound hx hs) h.idle h.files hq

theorem lock_moved {phase : HandlerPhase} (h : Flowing q₀ w)
    (hu : u.handler = Function.update w.handler i phase)
    (hq : u.queueLock = some i ↔ ∃ rest, phase = .sending rest)
    (ho : ∀ j, j ≠ i → (u.queueLock = some j ↔ w.queueLock = some j)) (j : ι) :
    u.queueLock = some j ↔ ∃ rest, u.handler j = .sending rest := by
  rw [hu]
  by_cases hj : j = i
  · subst hj
    rw [Function.update_self]
    exact hq
  · rw [Function.update_of_ne hj, ho j hj]
    exact h.lock j

omit [DecidableEq ι] in
theorem unsent_sending {rest : List NetworkOp} (h : Flowing q₀ w) (hi : w.handler i = .sending rest) :
    w.queueLock = some i ∧ w.unsent = rest := by
  have hlock := (h.lock i).mpr ⟨rest, hi⟩
  exact ⟨hlock, by simp [Server.unsent, HandlerPhase.unsent, hlock, hi]⟩

omit [DecidableEq ι] in
theorem same_sender {j : ι} {rest others : List NetworkOp} (h : Flowing q₀ w)
    (hi : w.handler i = .sending rest) (hj : w.handler j = .sending others) :
    i = j ∧ rest = others := by
  obtain ⟨hlock, hunsent⟩ := unsent_sending h hi
  obtain ⟨hlock', hunsent'⟩ := unsent_sending h hj
  exact ⟨Option.some.inj (hlock.symm.trans hlock'), hunsent.symm.trans hunsent'⟩

theorem flowing_step (h : Flowing q₀ w) (hs : Step edit w e u) : Flowing q₀ u := by
  cases hs with
  | @emit i hi =>
    have hne : w.queueLock ≠ some i := fun hl => by
      obtain ⟨rest, hr⟩ := (h.lock i).mp hl
      rw [hi] at hr
      cases hr
    refine ⟨h.files, h.idle, lock_moved h rfl ?_ fun _ _ => Iff.rfl, ?_, h.size, h.silent⟩
    · exact iff_of_false hne (by simp)
    · have hunsent : (w.setHandler i .waiting).unsent = w.unsent := by
        cases hl : w.queueLock with
        | none => simp [Server.unsent, Server.setHandler, hl]
        | some j =>
          have hj : j ≠ i := fun he => hne (he ▸ hl)
          simp [Server.unsent, Server.setHandler, hl, Function.update_of_ne hj]
      rw [hunsent]
      exact h.flow
  | @lock i q hi hn hq =>
    obtain ⟨hfiles, hidle⟩ := call_kept _ h hq
    obtain ⟨more, hmore⟩ := call_issued h.files hq
    refine ⟨hfiles, hidle, lock_moved h rfl (by simp) fun j hj => ?_, ?_, h.size, h.silent⟩
    · simp [hn, Ne.symm hj]
    · have hflow := h.flow
      simp only [Server.unsent, hn, List.append_nil] at hflow
      simp only [Server.unsent, Server.setHandler, Function.update_self, HandlerPhase.unsent]
      rw [← hmore, List.drop_left, hflow]
  | @send i op rest hi hlt =>
    obtain ⟨hlock, hunsent⟩ := unsent_sending h hi
    refine ⟨h.files, h.idle, lock_moved h rfl ?_ fun _ _ => Iff.rfl, ?_, ?_, h.silent⟩
    · exact iff_of_true hlock ⟨rest, rfl⟩
    · have hflow := h.flow
      rw [hunsent] at hflow
      simp [hflow, Server.unsent, Server.setHandler, hlock, HandlerPhase.unsent]
    · simpa [Server.setHandler] using Nat.succ_le_of_lt hlt
  | @finish i hi =>
    obtain ⟨hlock, hunsent⟩ := unsent_sending h hi
    refine ⟨h.files, h.idle, lock_moved h rfl (by simp) fun j hj => ?_, ?_, h.size, h.silent⟩
    · simp [hlock, Ne.symm hj]
    · have hflow := h.flow
      rw [hunsent] at hflow
      exact hflow
  | answer ht => exact ⟨h.files, h.idle, h.lock, h.flow, h.size, fun _ _ => h.silent _ ht⟩
  | @hydrate op rest q ht hn hq =>
    obtain ⟨hfiles, hidle⟩ := call_kept (.network op) h hq
    refine ⟨hfiles, hidle, h.lock, ?_, h.size, fun _ _ => h.silent _ ht⟩
    exact (deliver_issued h.files h.idle hq).trans h.flow
  | subscribe ht => exact ⟨h.files, h.idle, h.lock, h.flow, h.size, fun _ ht => by cases ht⟩
  | @forward op rest ht hc =>
    refine ⟨h.files, h.idle, h.lock, ?_, ?_, fun _ ht' => ?_⟩
    · rw [h.flow, hc]
      simp [Server.unsent]
    · have hsize := h.size
      rw [hc, List.length_cons] at hsize
      exact (Nat.le_succ _).trans hsize
    · rw [ht] at ht'
      cases ht'
  | @hear item q ht hn hq =>
    obtain ⟨hfiles, hidle⟩ := call_kept (.network item) h hq
    refine ⟨hfiles, hidle, h.lock, ?_, h.size, h.silent⟩
    exact (deliver_issued h.files h.idle hq).trans h.flow

theorem run_flowing {l : List (Event ι)} (h : Flowing q₀ w) (hrun : Run (Step edit) AnyEvent w l u) :
    Flowing q₀ u :=
  hrun.invariant (fun _ _ _ hw _ hs => flowing_step hw hs) h

theorem run_calls {l : List (Event ι)} (hrun : Run (Step edit) AnyEvent w l u) :
    (l.filterMap (Event.call edit)).foldlM QueueCall.apply w.queue = some u.queue := by
  induction hrun with
  | nil w => rfl
  | @cons w v u e l _ hs _ ih =>
    have hone : ∀ call, e.call edit = some call → call.apply w.queue = some v.queue →
        ((e :: l).filterMap (Event.call edit)).foldlM QueueCall.apply w.queue = some u.queue := by
      intro call he hcall
      rw [List.filterMap_cons_some he, List.foldlM_cons, hcall]
      exact ih
    have hnone : e.call edit = none → v.queue = w.queue →
        ((e :: l).filterMap (Event.call edit)).foldlM QueueCall.apply w.queue = some u.queue := by
      intro he hsame
      rw [List.filterMap_cons_none he, ← hsame]
      exact ih
    cases hs with
    | lock _ _ hq => exact hone _ rfl hq
    | hydrate _ _ hq => exact hone _ rfl hq
    | hear _ _ hq => exact hone _ rfl hq
    | _ => exact hnone rfl rfl

omit [DecidableEq ι] in
theorem loaded_flowing {dirPath : PathBuf} {read : Except String (List FsEntry)} {peer : ℕ}
    (hl : SharQueue.new dirPath read peer = some (.ok q₀)) :
    Flowing q₀ (start (ι := ι) q₀) ∧ issued q₀ = [] := by
  refine ⟨flowing_start (fun ref f hf => (loaded_files hl ref f hf).toSound) (loaded_idle hl), ?_⟩
  rw [issued, (loaded_fresh hl).silent]
  rfl

/-- With room for all that is left to send, or with a task that empties the channel, the handler
comes to its end. -/
theorem sends_end {rest : List NetworkOp} (h : Flowing q₀ w) (hi : w.handler i = .sending rest)
    (hroom : w.channel.length + rest.length ≤ channelSize ∨ w.task = .broadcasting) :
    ∃ l u, Run (Step edit) AnyEvent w l u ∧ u.handler i = .returned := by
  induction rest generalizing w with
  | nil => exact ⟨_, _, .cons trivial (.finish hi) (.nil _), by simp [Server.setHandler]⟩
  | cons op rest ih =>
    by_cases hlt : w.channel.length < channelSize
    · have hs : Step edit w (.send i) _ := .send hi hlt
      obtain ⟨l, u, hrun, hu⟩ := ih (flowing_step h hs) (by simp [Server.setHandler]) <| by
        refine hroom.imp (fun hroom => ?_) id
        simp only [List.length_append, List.length_cons, List.length_nil] at hroom ⊢
        omega
      exact ⟨_, u, .cons trivial hs hrun, hu⟩
    · have htask : w.task = .broadcasting := hroom.resolve_left fun hroom => by
        rw [List.length_cons] at hroom
        omega
      obtain ⟨first, others, hc⟩ : ∃ first others, w.channel = first :: others := by
        cases hc : w.channel with
        | nil => simp [hc, channelSize] at hlt
        | cons first others => exact ⟨first, others, rfl⟩
      have hf : Step edit w .forward _ := .forward htask hc
      have hsize := h.size
      rw [hc, List.length_cons] at hsize
      have hs : Step edit { w with channel := others, gossip := w.gossip ++ [first] } (.send i) _ :=
        .send hi hsize
      obtain ⟨l, u, hrun, hu⟩ := ih (flowing_step (flowing_step h hf) hs) (by simp [Server.setHandler])
        (Or.inr htask)
      exact ⟨_, u, .cons trivial hf (.cons trivial hs hrun), hu⟩

/-- A handler has more to send than the channel takes, and the task waits for the queue. -/
structure Wedged (i : ι) (w : Server ι) : Prop where
  sending : ∃ rest, w.handler i = .sending rest ∧ channelSize < w.channel.length + rest.length
  hydrating : ∃ op rest, w.task = .hydrating (op :: rest)

structure Still (w u : Server ι) : Prop where
  queue : u.queue = w.queue
  gossip : u.gossip = w.gossip
  task : u.task = w.task
  returned : ∀ j, u.handler j = .returned → w.handler j = .returned

theorem wedged_step (h : Flowing q₀ w) (hw : Wedged i w) (hs : Step edit w e u) :
    Wedged i u ∧ Still w u := by
  obtain ⟨⟨rest, hi, hmore⟩, op, ops, ht⟩ := hw
  obtain ⟨hlock, _⟩ := unsent_sending h hi
  have hfree : w.queueLock ≠ none := by simp [hlock]
  cases hs with
  | @emit j hj =>
    have hne : i ≠ j := fun he => by
      rw [← he, hi] at hj
      cases hj
    refine ⟨⟨⟨rest, ?_, hmore⟩, op, ops, ht⟩, rfl, rfl, rfl, fun k hk => ?_⟩
    · simpa [Server.setHandler, Function.update_of_ne hne] using hi
    · by_cases hkj : k = j
      · subst hkj
        simp [Server.setHandler] at hk
      · simpa [Server.setHandler, Function.update_of_ne hkj] using hk
  | lock _ hn _ => exact absurd hn hfree
  | @send j first others hj hlt =>
    obtain ⟨rfl, rfl⟩ := same_sender h hi hj
    refine ⟨⟨⟨others, by simp [Server.setHandler], ?_⟩, op, ops, ht⟩, rfl, rfl, rfl, fun k hk => ?_⟩
    · simp only [List.length_append, List.length_cons, List.length_nil] at hmore ⊢
      omega
    · by_cases hk' : k = i
      · subst hk'
        simp [Server.setHandler] at hk
      · simpa [Server.setHandler, Function.update_of_ne hk'] using hk
  | @finish j hj =>
    obtain ⟨rfl, rfl⟩ := same_sender h hi hj
    exact absurd hmore (by simpa using h.size)
  | answer ht' => rw [ht] at ht'; cases ht'
  | hydrate _ hn _ => exact absurd hn hfree
  | subscribe ht' => rw [ht] at ht'; cases ht'
  | forward ht' _ => rw [ht] at ht'; cases ht'
  | hear _ hn _ => exact absurd hn hfree

theorem wedged_run {l : List (Event ι)} (h : Flowing q₀ w) (hw : Wedged i w)
    (hrun : Run (Step edit) AnyEvent w l u) : Wedged i u ∧ Still w u := by
  induction hrun with
  | nil w => exact ⟨hw, rfl, rfl, rfl, fun _ hj => hj⟩
  | cons _ hs _ ih =>
    obtain ⟨hw₁, hstill⟩ := wedged_step h hw hs
    obtain ⟨hu, hrest⟩ := ih (flowing_step h hs) hw₁
    exact ⟨hu, hrest.queue.trans hstill.queue, hrest.gossip.trans hstill.gossip,
      hrest.task.trans hstill.task, fun j hj => hstill.returned j (hrest.returned j hj)⟩

section Typing

variable {path : PathBuf} {ref : FileRef} {peer n : ℕ} {letters : List Char} {v v' : Server ℕ}

/-- Every letter at the head of the document, each from a handler of its own. -/
def typing (path : PathBuf) (letters : List Char) (tag : ℕ) : Edit :=
  .add (DocMirror.emitAdd path (.known 0 0) 0 (letters.getD tag ' ') tag)

structure Typed (path : PathBuf) (ref : FileRef) (peer : ℕ) (letters : List Char) (n : ℕ)
    (v : Server ℕ) : Prop where
  serving : ∃ f, Serving path ref peer letters v.queue f
  counter : v.queue.counter = n
  channel : v.channel.length = n
  lock : v.queueLock = none
  task : v.task = .hydrating []
  idle : ∀ j, n ≤ j → v.handler j = .idle

theorem typed_start {dirPath : PathBuf} {name : String} {q : SharQueue}
    (hl : SharQueue.new dirPath (.ok [.file name (.ok [])]) peer = some (.ok q))
    (hr : q.tree.findFile path = some ref) : Typed path ref peer letters 0 (start q) := by
  have hlinked := SocketRuns.linked_start hl hr
  obtain ⟨f, _, hserving, _⟩ := hlinked.serving
  refine ⟨⟨f, { hserving with values := fun x rel hx => ?_ }⟩, hlinked.bench.counter, rfl, rfl, rfl,
    fun _ _ => rfl⟩
  refine (hserving.values x rel hx).imp id ?_
  rintro ⟨tag, _, hv⟩
  simp [SocketBench.written] at hv

theorem typed_call (h : Typed path ref peer letters n v) (hn : n < letters.length)
    (hroom : n + 1 < 2 ^ 32) : ∃ q g item, (typing path letters n).call.apply v.queue = some q ∧
      Serving path ref peer letters q g ∧ q.counter = n + 1 ∧ issued q = issued v.queue ++ [item] := by
  obtain ⟨f, hserving⟩ := h.serving
  have hvalue : letters[n]? = some (letters.getD n ' ') := by
    rw [List.getD_eq_getElem?_getD, List.getElem?_eq_getElem hn]
    rfl
  have hgenuine : SocketBench.Genuine path letters (typing path letters n) :=
    ⟨.known 0 0, 0, letters.getD n ' ', rfl, hvalue⟩
  obtain ⟨u, B, hrows⟩ := hserving.shape.headed
  have htext : text f = [] ++ root :: (u ++ B.flatten) := by
    rw [text, hrows, List.flatten_cons]
    rfl
  have hprocessed : SocketBench.processed peer (text f) (typing path letters n) =
      some ([] ++ root :: (n + 1, peer) :: (u ++ B.flatten)) := by
    rw [htext]
    exact FlatClient.insertAfter_middle (htext ▸ hserving.shape.nodup)
  obtain ⟨q, g, hq, hg, _, _, hcounter, item, hissued⟩ :=
    served_add hserving hgenuine h.counter.symm (h.counter.symm ▸ hroom) hprocessed
  exact ⟨q, g, item, hq, hg, h.counter ▸ hcounter, hissued⟩

theorem typed_lock (h : Typed path ref peer letters n v) (hn : n < letters.length)
    (hroom : n + 1 < 2 ^ 32) : ∃ q g item,
      Run (Step (typing path letters)) AnyEvent v [.emit n, .lock n]
        { v.setHandler n (.sending [item]) with queue := q, queueLock := some n } ∧
      Serving path ref peer letters q g ∧ q.counter = n + 1 := by
  obtain ⟨q, g, item, hq, hg, hcounter, hissued⟩ := typed_call h hn hroom
  have hemit : Step (typing path letters) v (.emit n) (v.setHandler n .waiting) :=
    .emit (h.idle n le_rfl)
  have hlock : Step (typing path letters) (v.setHandler n .waiting) (.lock n) _ :=
    .lock (by simp [Server.setHandler]) h.lock hq
  have hdrop : (issued q).drop (issued v.queue).length = [item] := by rw [hissued, List.drop_left]
  rw [show (v.setHandler n .waiting).queue = v.queue from rfl, hdrop] at hlock
  simp only [Server.setHandler, Function.update_idem] at hlock
  exact ⟨q, g, item, .cons trivial hemit (.cons trivial hlock (.nil _)), hg, hcounter⟩

theorem typed_next (h : Typed path ref peer letters n v) (hn : n < letters.length)
    (hsize : n < channelSize) : ∃ l v', Run (Step (typing path letters)) AnyEvent v l v' ∧
      Typed path ref peer letters (n + 1) v' := by
  have hroom : n + 1 < 2 ^ 32 := by
    rw [channelSize] at hsize
    omega
  obtain ⟨q, g, item, hrun, hg, hcounter⟩ := typed_lock h hn hroom
  let w : Server ℕ := { v.setHandler n (.sending [item]) with queue := q, queueLock := some n }
  let u : Server ℕ := { w.setHandler n (.sending []) with channel := w.channel ++ [item] }
  have hsend : Step (typing path letters) w (.send n) u :=
    .send (by simp [w, Server.setHandler]) (h.channel.symm ▸ hsize)
  have hfinish : Step (typing path letters) u (.finish n) _ := .finish (by simp [u, Server.setHandler])
  refine ⟨_, _, hrun.append (.cons trivial hsend (.cons trivial hfinish (.nil _))), ⟨g, hg⟩, hcounter,
    ?_, rfl, h.task, fun j hj => ?_⟩
  · simp [u, w, Server.setHandler, h.channel]
  · have hne : j ≠ n := by omega
    simpa [u, w, Server.setHandler, Function.update_of_ne hne] using h.idle j (by omega)

theorem typed_more {k : ℕ} (h : Typed path ref peer letters n v) (hn : n + k ≤ letters.length)
    (hsize : n + k ≤ channelSize) : ∃ l v', Run (Step (typing path letters)) AnyEvent v l v' ∧
      Typed path ref peer letters (n + k) v' := by
  induction k generalizing n v with
  | zero => exact ⟨[], v, .nil _, h⟩
  | succ k ih =>
    obtain ⟨l, v₁, hrun, h₁⟩ := typed_next h (by omega) (by omega)
    obtain ⟨l', v₂, hrun', h₂⟩ := ih (n := n + 1) h₁ (by omega) (by omega)
    exact ⟨l ++ l', v₂, hrun.append hrun', by rwa [Nat.add_assoc, Nat.add_comm 1 k] at h₂⟩

/-- A text that is too long for the channel, typed before an answer comes, wedges the server. -/
theorem typed_wedges {dirPath : PathBuf} {name : String} {q : SharQueue} (op : NetworkOp)
    (ops : List NetworkOp) (hl : SharQueue.new dirPath (.ok [.file name (.ok [])]) peer = some (.ok q))
    (hr : q.tree.findFile path = some ref) (hlong : channelSize < letters.length) :
    ∃ l v rest, Run (Step (typing path letters)) AnyEvent (start q) l v ∧
      v.handler channelSize = .sending rest ∧ v.task = .hydrating (op :: ops) ∧
      channelSize < v.channel.length + rest.length := by
  have hstart : Typed path ref peer letters 0 (start q) := typed_start hl hr
  obtain ⟨l, v, hrun, h⟩ := typed_more (k := channelSize) hstart (by omega) (by omega)
  rw [Nat.zero_add] at h
  obtain ⟨q', _, item, hrun', _, _⟩ := typed_lock h hlong (by decide)
  let w : Server ℕ :=
    { v.setHandler channelSize (.sending [item]) with queue := q', queueLock := some channelSize }
  have hanswer : Step (typing path letters) w (.answer (op :: ops)) _ := .answer h.task
  refine ⟨_, _, [item], hrun.append (hrun'.append (.cons trivial hanswer (.nil _))), ?_, rfl, ?_⟩
  · simp [w, Server.setHandler]
  · simp [w, Server.setHandler, h.channel]

def longText : List Char := List.replicate (channelSize + 1) 'a'

theorem long_text : channelSize < longText.length := by
  rw [longText, List.length_replicate]
  exact Nat.lt_succ_self _

end Typing

/-- Whatever the handlers do at once, each operation that the queue has issued is with the gossip,
in the channel or with the one handler that has the queue, in the order of the queue. -/
theorem broadcast_in_order {dirPath : PathBuf} {read : Except String (List FsEntry)} {peer : ℕ}
    {l : List (Event ι)} (hl : SharQueue.new dirPath read peer = some (.ok q₀))
    (hrun : Run (Step edit) AnyEvent (start q₀) l w) :
    issued w.queue = w.gossip ++ w.channel ++ w.unsent ∧ w.channel.length ≤ channelSize ∧
      (w.queueLock = none → issued w.queue = w.gossip ++ w.channel) ∧
      (l.filterMap (Event.call edit)).foldlM QueueCall.apply q₀ = some w.queue := by
  obtain ⟨hstart, hsilent⟩ := loaded_flowing (ι := ι) hl
  have h := run_flowing hstart hrun
  have hflow : issued w.queue = w.gossip ++ w.channel ++ w.unsent := by
    rw [h.flow, hsilent, List.nil_append]
  refine ⟨hflow, h.size, fun hlock => ?_, run_calls hrun⟩
  rw [hflow, Server.unsent, hlock, List.append_nil]

theorem broadcast_in_order_typed : ∃ l v,
    Run (Step (typing SocketRuns.onF longText)) AnyEvent (start SocketRuns.loadedF) l v ∧
      issued v.queue = v.gossip ++ v.channel ++ v.unsent ∧ v.channel.length ≤ channelSize ∧
      (v.queueLock = none → issued v.queue = v.gossip ++ v.channel) ∧
      (l.filterMap (Event.call (typing SocketRuns.onF longText))).foldlM QueueCall.apply
        SocketRuns.loadedF = some v.queue := by
  obtain ⟨l, v, _, hrun, _⟩ := typed_wedges PeerSession.opA [] SocketRuns.loadedF_new
    SocketRuns.loadedF_finds long_text
  exact ⟨l, v, hrun, broadcast_in_order SocketRuns.loadedF_new hrun⟩

omit [DecidableEq ι] in
theorem hydrating_issued {rest ops : List NetworkOp} (h : Flowing q₀ w) (hq : issued q₀ = [])
    (hi : w.handler i = .sending rest) (ht : w.task = .hydrating ops) :
    (issued w.queue).length = w.channel.length + rest.length := by
  rw [h.flow, hq, h.silent _ ht, (unsent_sending h hi).2, List.nil_append, List.nil_append,
    List.length_append]

/-- A handler that has the queue can come to its end as long as the channel has room for all that
the queue has issued, or the task has no answer to replay. Otherwise the server stands still. -/
theorem returns_iff_room {dirPath : PathBuf} {read : Except String (List FsEntry)} {peer : ℕ}
    {l : List (Event ι)} {rest : List NetworkOp}
    (hl : SharQueue.new dirPath read peer = some (.ok q₀))
    (hrun : Run (Step edit) AnyEvent (start q₀) l w) (hi : w.handler i = .sending rest) :
    ((∃ l u, Run (Step edit) AnyEvent w l u ∧ u.handler i = .returned) ↔
      ∀ op ops, w.task = .hydrating (op :: ops) → (issued w.queue).length ≤ channelSize) ∧
    ∀ op ops, w.task = .hydrating (op :: ops) → channelSize < (issued w.queue).length →
      ∀ l u, Run (Step edit) AnyEvent w l u → Still w u := by
  obtain ⟨hstart, hsilent⟩ := loaded_flowing (ι := ι) hl
  have h := run_flowing hstart hrun
  have hwedged : ∀ op ops, w.task = .hydrating (op :: ops) →
      channelSize < (issued w.queue).length → Wedged i w := fun op ops ht hmore =>
    ⟨⟨rest, hi, hydrating_issued h hsilent hi ht ▸ hmore⟩, op, ops, ht⟩
  refine ⟨⟨?_, fun hroom => ?_⟩, fun op ops ht hmore l u hrun' =>
    (wedged_run h (hwedged op ops ht hmore) hrun').2⟩
  · rintro ⟨l', u, hrun', hu⟩ op ops ht
    by_contra hmore
    obtain ⟨⟨_, hsending, _⟩, _⟩ := (wedged_run h (hwedged op ops ht (not_le.mp hmore)) hrun').1
    rw [hu] at hsending
    cases hsending
  · cases ht : w.task with
    | broadcasting => exact sends_end h hi (Or.inr ht)
    | hydrating ops =>
      cases ops with
      | nil =>
        have hs : Step edit w .subscribe _ := .subscribe ht
        obtain ⟨l', u, hrun', hu⟩ := sends_end (flowing_step h hs) hi (Or.inr rfl)
        exact ⟨_, u, .cons trivial hs hrun', hu⟩
      | cons op ops =>
        have hlength := hroom op ops ht
        rw [hydrating_issued h hsilent hi ht] at hlength
        exact sends_end h hi (Or.inl hlength)

theorem returns_iff_room_typed : ∃ l v,
    Run (Step (typing SocketRuns.onF longText)) AnyEvent (start SocketRuns.loadedF) l v ∧
      (¬ ∃ l u, Run (Step (typing SocketRuns.onF longText)) AnyEvent v l u ∧
        u.handler channelSize = .returned) ∧
      ∀ l u, Run (Step (typing SocketRuns.onF longText)) AnyEvent v l u →
        Still v u := by
  obtain ⟨l, v, rest, hrun, hi, ht, hmore⟩ := typed_wedges PeerSession.opA []
    SocketRuns.loadedF_new SocketRuns.loadedF_finds long_text
  obtain ⟨hstart, hsilent⟩ := loaded_flowing (ι := ℕ) SocketRuns.loadedF_new
  have hissued : channelSize < (issued v.queue).length :=
    hydrating_issued (run_flowing hstart hrun) hsilent hi ht ▸ hmore
  obtain ⟨hreturns, hstill⟩ := returns_iff_room SocketRuns.loadedF_new hrun hi
  refine ⟨l, v, hrun, fun hreturned => ?_, hstill _ _ ht hissued⟩
  exact absurd (hreturns.mp hreturned _ _ ht) (not_le.mpr hissued)

end Model

end BroadcastChannel
