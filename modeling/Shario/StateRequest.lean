import Shario.ByteFrames
import Shario.QueueRuns

/-! `state_request.rs` on the wire, the queue that it fills, and the peers that `main.rs` asks
at the start. Calls of the queue do not overlap here. -/
namespace StateRequest

open CrdtTypes FileTree DirectoryTree ShareQueue QueueSteps QueueRuns ByteFrames

/-- `QueueWrap` between two calls; there is no queue before a join. -/
structure SharedQueue where
  queue : Option SharQueue
  buffer : List NetworkOp

def SharedQueue.default : SharedQueue := ⟨none, []⟩

/-- `add_network_operation` or `remove_network_operation`. -/
def SharedQueue.networkOperation (w : SharedQueue) (item : NetworkOp) : Option SharedQueue :=
  match w.queue with
  | some q => do
    let q ← deliver q item
    some { w with queue := some q }
  | none => some { w with buffer := w.buffer ++ [item] }

/-- Without a queue, an add runs into a missing callback and panics; a removal finds no file, and
what it leaves behind is overwritten by the join. -/
def SharedQueue.apply (w : SharedQueue) : QueueCall → Option SharedQueue
  | .network item => w.networkOperation item
  | .ideAdd op => do
    let q ← w.queue
    let q ← q.addIdeOperation op
    some { w with queue := some q }
  | .ideRemove op =>
    match w.queue with
    | some q => do
      let q ← q.removeIdeOperation op
      some { w with queue := some q }
    | none => some w

def SharedQueue.new (w : SharedQueue) (dirPath : PathBuf) (read : Except String (List FsEntry))
    (thisPeerId : ℕ) : Option (Except Error Unit × SharedQueue) := do
  match ← SharQueue.new dirPath read thisPeerId with
  | .error e => some (.error e, w)
  | .ok realQueue =>
    match w.queue with
    | some _ => some (.ok (), w)
    | none => do
      let w ← w.buffer.foldlM SharedQueue.networkOperation { w with queue := some realQueue }
      some (.ok (), w)

inductive Call where
  | queue (call : QueueCall)
  | join (dirPath : PathBuf) (read : Except String (List FsEntry)) (thisPeerId : ℕ)

def Call.apply (w : SharedQueue) : Call → Option SharedQueue
  | .queue call => w.apply call
  | .join dirPath read thisPeerId => (w.new dirPath read thisPeerId).map Prod.snd

/-- `serde_json` on the operations of a state. -/
structure Codec where
  toVec : List NetworkOp → Bytes
  fromSlice : Bytes → Except String (List NetworkOp)

/-- What a peer gives that is dialled: no connection, no stream, or a stream of bytes; a read
that runs out of bytes after `n` of them has the error `fault n`. -/
inductive Reply where
  | unreachable (e : String)
  | closed (e : String)
  | stream (bytes : Bytes) (fault : ℕ → String)

def maxStateBytes : ℕ := 1024 * 1024 * 1024

/-- What `accept` writes. -/
def accept (codec : Codec) (state : List NetworkOp) : Bytes := frame 8 (codec.toVec state)

/-- `request_state`, up to its loop. -/
def received (codec : Codec) : Reply → Except Error (List NetworkOp)
  | .unreachable e => .error (.generic ("couldn't connect to peer: " ++ e))
  | .closed e => .error (.generic ("couldn't open stream: " ++ e))
  | .stream bytes fault =>
    match readExact 8 bytes with
    | none => .error (.generic ("couldn't read length prefix: " ++ fault bytes.length))
    | some (lenBuf, bytes) =>
      let declaredLen := fromBeBytes lenBuf
      if maxStateBytes < declaredLen then
        .error (.generic ("peer claimed an unreasonably large state (" ++ toString declaredLen ++
          " bytes)"))
      else
        match readExact declaredLen bytes with
        | none => .error (.generic ("couldn't read state payload: " ++ fault bytes.length))
        | some (bytes, _) =>
          match codec.fromSlice bytes with
          | .error e => .error (.generic ("couldn't decode response: " ++ e))
          | .ok state => .ok state

def requestState (codec : Codec) (w : SharedQueue) (reply : Reply) :
    Option (Except Error Unit × SharedQueue) :=
  match received codec reply with
  | .error e => some (.error e, w)
  | .ok state => do
    let w ← state.foldlM SharedQueue.networkOperation w
    some (.ok (), w)

/-- The loop of `main.rs`, with the peers that it has asked; `remove(0)` panics at the end of
the list. -/
def discover {κ : Type} (codec : Codec) (dial : κ → Reply) :
    (numDiscoveryPeers : ℕ) → (discoveryPeers : List κ) → SharedQueue → Option (List κ × SharedQueue)
  | 0, _, w => some ([], w)
  | _ + 1, [], _ => none
  | num + 1, randomPeer :: discoveryPeers, w => do
    let (result, w) ← requestState codec w (dial randomPeer)
    let num := match result with
      | .ok () => num
      | .error _ => min (num + 1) discoveryPeers.length
    let (asked, w) ← discover codec dial num discoveryPeers w
    some (randomPeer :: asked, w)

/-- The peers come shuffled. -/
def hydrate {κ : Type} (codec : Codec) (dial : κ → Reply) (discoveryPeers : List κ)
    (w : SharedQueue) : Option (List κ × SharedQueue) :=
  discover codec dial (min 3 discoveryPeers.length) discoveryPeers w

def networkOps (calls : List Call) : List NetworkOp :=
  calls.filterMap fun c => match c with
    | .queue (.network item) => some item
    | _ => none

def queueCalls (calls : List Call) : List QueueCall :=
  calls.filterMap fun c => match c with
    | .queue call => some call
    | .join _ _ _ => none

/-- A call that leaves the queue as it is: anything but an IDE add and a join that loads. -/
def Premature : Call → Prop
  | .queue (.ideAdd _) => False
  | .queue _ => True
  | .join dirPath read thisPeerId => ∃ e, SharQueue.new dirPath read thisPeerId = some (.error e)

section Join

variable {items buffer : List NetworkOp} {calls before after : List Call} {q q₀ : SharQueue}
  {dirPath : PathBuf} {read : Except String (List FsEntry)} {peer : ℕ}

theorem handed : items.foldlM SharedQueue.networkOperation ⟨some q, buffer⟩ =
    (items.foldlM deliver q).map fun q => ⟨some q, buffer⟩ := by
  induction items generalizing q with
  | nil => rfl
  | cons item items ih =>
    simp only [List.foldlM_cons, SharedQueue.networkOperation, Option.bind_eq_bind]
    cases hq : deliver q item with
    | none => rfl
    | some q' => exact ih

theorem joined (hl : SharQueue.new dirPath read peer = some (.ok q)) :
    (⟨none, buffer⟩ : SharedQueue).new dirPath read peer =
      (buffer.foldlM deliver q).map fun q => (.ok (), ⟨some q, buffer⟩) := by
  simp only [SharedQueue.new, hl, Option.bind_eq_bind, Option.bind_some, handed]
  cases buffer.foldlM deliver q <;> rfl

theorem premature_run (h : ∀ c ∈ calls, Premature c) :
    calls.foldlM Call.apply ⟨none, buffer⟩ = some ⟨none, buffer ++ networkOps calls⟩ := by
  induction calls generalizing buffer with
  | nil => simp [networkOps]
  | cons c calls ih =>
    have hrest : ∀ c ∈ calls, Premature c := fun c hc => h c (List.mem_cons_of_mem _ hc)
    have hc := h c List.mem_cons_self
    rw [List.foldlM_cons]
    cases c with
    | queue call =>
      cases call with
      | network item =>
        have hnext : calls.foldlM Call.apply ⟨none, buffer ++ [item]⟩ = _ := ih hrest
        refine hnext.trans ?_
        simp [networkOps]
      | ideAdd op => exact absurd hc id
      | ideRemove op => exact ih hrest
    | join dirPath read peer =>
      obtain ⟨e, he⟩ := hc
      rw [Call.apply, SharedQueue.new, he]
      exact ih hrest

/-- After the join another one changes nothing. -/
theorem joined_run (h : ∀ d r p, .join d r p ∈ calls → SharQueue.new d r p ≠ none) :
    calls.foldlM Call.apply ⟨some q, buffer⟩ =
      ((queueCalls calls).foldlM QueueCall.apply q).map fun q => ⟨some q, buffer⟩ := by
  induction calls generalizing q with
  | nil => rfl
  | cons c calls ih =>
    have hrest : ∀ d r p, .join d r p ∈ calls → SharQueue.new d r p ≠ none :=
      fun d r p hc => h d r p (List.mem_cons_of_mem _ hc)
    rw [List.foldlM_cons]
    cases c with
    | queue call =>
      have happly : Call.apply ⟨some q, buffer⟩ (.queue call) =
          (call.apply q).map fun q => ⟨some q, buffer⟩ := by
        cases call <;> simp only [Call.apply, SharedQueue.apply, SharedQueue.networkOperation,
          QueueCall.apply, Option.bind_eq_bind, Option.bind_some, Option.map_eq_bind] <;> rfl
      have hcalls : queueCalls (.queue call :: calls) = call :: queueCalls calls := rfl
      rw [happly, hcalls, List.foldlM_cons]
      cases call.apply q with
      | none => rfl
      | some q' => exact ih hrest
    | join d r p =>
      have hloaded := h d r p List.mem_cons_self
      have hsame : Call.apply ⟨some q, buffer⟩ (.join d r p) = some ⟨some q, buffer⟩ := by
        obtain ⟨result, hr⟩ := Option.ne_none_iff_exists'.mp hloaded
        cases result <;> simp [Call.apply, SharedQueue.new, hr]
      rw [hsame]
      exact ih hrest

/-- Buffering is transparent: a queue that is joined late is the one that would have been there
from the start, given the same network operations before anything else. -/
theorem late_join (hbefore : ∀ c ∈ before, Premature c)
    (hafter : ∀ d r p, .join d r p ∈ after → SharQueue.new d r p ≠ none)
    (hl : SharQueue.new dirPath read peer = some (.ok q₀)) :
    (before ++ .join dirPath read peer :: after).foldlM Call.apply SharedQueue.default =
      (((networkOps before).map QueueCall.network ++ queueCalls after).foldlM QueueCall.apply q₀).map
        fun q => ⟨some q, networkOps before⟩ := by
  have hmap : ((networkOps before).map QueueCall.network).foldlM QueueCall.apply q₀ =
      (networkOps before).foldlM deliver q₀ := by
    rw [List.foldlM_map]
    rfl
  rw [List.foldlM_append, SharedQueue.default, premature_run hbefore, List.nil_append,
    List.foldlM_append, hmap, Option.bind_eq_bind, Option.bind_some, List.foldlM_cons, Call.apply,
    joined hl]
  cases (networkOps before).foldlM deliver q₀ with
  | none => rfl
  | some q => exact joined_run hafter

def loadedF : SharQueue := oneFile "s" 5 noChars [[root]] 0 []

theorem loadedF_new : SharQueue.new [.rootDir, .normal "s"] (.ok [.file "f" (.ok [])]) 5 =
    some (.ok loadedF) := rfl

def early : NetworkOp := .add ⟨[.normal "f"], ⟨1, 1, .new 'a' 0 0⟩, 0⟩

theorem late_join_early : ∃ q, deliver loadedF early = some q ∧
    [.join [.normal "x"] (.error "denied") 5, .queue (.network early),
      .join [.rootDir, .normal "s"] (.ok [.file "f" (.ok [])]) 5].foldlM Call.apply
        SharedQueue.default = some ⟨some q, [early]⟩ := by
  have hbefore : ∀ c ∈ [Call.join [.normal "x"] (.error "denied") 5, .queue (.network early)],
      Premature c := by
    intro c hc
    rcases List.mem_cons.mp hc with rfl | hc
    · exact ⟨_, rfl⟩
    · rw [List.mem_singleton.mp hc]
      trivial
  obtain ⟨q, hq⟩ : ∃ q, deliver loadedF early = some q := ⟨_, rfl⟩
  have hcalls : ([QueueCall.network early] ++ []).foldlM QueueCall.apply loadedF = some q := by
    rw [List.append_nil, List.foldlM_cons, QueueCall.apply, hq]
    rfl
  exact ⟨q, hq, (late_join hbefore (fun _ _ _ h => absurd h (by simp)) loadedF_new).trans
    (congrArg _ hcalls)⟩

end Join

section Request

variable {codec : Codec} {state : List NetworkOp} {bytes rest : Bytes} {fault : ℕ → String}
  {w : SharedQueue}

theorem declared_length (hlen : (codec.toVec state).length < 2 ^ 64) :
    fromBeBytes (toBeBytes 8 (codec.toVec state).length) = (codec.toVec state).length := by
  rw [fromBeBytes_toBeBytes]
  exact Nat.mod_eq_of_lt (by omega)

theorem received_oversize (hlen : (codec.toVec state).length < 2 ^ 64)
    (hmax : maxStateBytes < (codec.toVec state).length) :
    received codec (.stream (accept codec state ++ rest) fault) =
      .error (.generic ("peer claimed an unreasonably large state (" ++
        toString (codec.toVec state).length ++ " bytes)")) := by
  have hprefix := @readExact_append 8 (toBeBytes 8 (codec.toVec state).length)
    (codec.toVec state ++ rest) (toBeBytes_length _ _)
  simp only [received, accept, frame, List.append_assoc, hprefix, declared_length hlen, if_pos hmax]

theorem received_cut (fault : ℕ → String) (hlen : (codec.toVec state).length < 2 ^ 64)
    (hcut : bytes <+: accept codec state) (hne : bytes ≠ accept codec state) :
    ∃ e, received codec (.stream bytes fault) = .error e := by
  rcases frame_cut hcut hne with hshort | ⟨part, rfl, hshort⟩
  · simp only [received, readExact_short hshort]
    exact ⟨_, rfl⟩
  · have hprefix := @readExact_append 8 (toBeBytes 8 (codec.toVec state).length) part
      (toBeBytes_length _ _)
    simp only [received, hprefix, declared_length hlen, readExact_short hshort]
    split <;> exact ⟨_, rfl⟩

theorem requestState_error {reply : Reply} {e : Error} (h : received codec reply = .error e) :
    requestState codec w reply = some (.error e, w) := by
  rw [requestState, h]

theorem requestState_ok {reply : Reply} (h : received codec reply = .ok state) :
    requestState codec w reply =
      (state.foldlM SharedQueue.networkOperation w).map fun w => (.ok (), w) := by
  rw [requestState, h, Option.map_eq_bind]
  rfl

theorem received_ok {reply : Reply} : received codec reply = .ok state ↔
    ∃ payload rest fault, reply = .stream (frame 8 payload ++ rest) fault ∧
      payload.length ≤ maxStateBytes ∧ codec.fromSlice payload = .ok state := by
  constructor
  · intro h
    cases reply with
    | unreachable e => exact absurd h (by simp [received])
    | closed e => exact absurd h (by simp [received])
    | stream bytes fault =>
      simp only [received] at h
      split at h
      · exact absurd h (by simp)
      rename_i lenBuf rest hlen
      obtain ⟨rfl, hwidth⟩ := readExact_eq hlen
      split at h
      · exact absurd h (by simp)
      rename_i hmax
      split at h
      · exact absurd h (by simp)
      rename_i payload rest hpayload
      obtain ⟨rfl, hdeclared⟩ := readExact_eq hpayload
      split at h
      · exact absurd h (by simp)
      rename_i ops hops
      obtain rfl := Except.ok.inj h
      have hbuf := toBeBytes_fromBeBytes lenBuf
      rw [hwidth, ← hdeclared] at hbuf
      exact ⟨payload, rest, fault, by rw [frame, hbuf, List.append_assoc], by omega, hops⟩
  · rintro ⟨payload, rest, fault, rfl, hmax, hops⟩
    have hlen : fromBeBytes (toBeBytes 8 payload.length) = payload.length := by
      rw [maxStateBytes] at hmax
      rw [fromBeBytes_toBeBytes]
      exact Nat.mod_eq_of_lt (by omega)
    have hprefix := @readExact_append 8 (toBeBytes 8 payload.length) (payload ++ rest)
      (toBeBytes_length _ _)
    have hpayload := @readExact_append _ payload rest rfl
    simp only [received, frame, List.append_assoc, hprefix, hlen, if_neg (Nat.not_lt.mpr hmax),
      hpayload, hops]

theorem received_accept (hcodec : codec.fromSlice (codec.toVec state) = .ok state)
    (hmax : (codec.toVec state).length ≤ maxStateBytes) :
    received codec (.stream (accept codec state ++ rest) fault) = .ok state :=
  received_ok.mpr ⟨_, rest, fault, rfl, hmax, hcodec⟩

/-- A request is taken exactly when it brings one whole frame of a bearable size that decodes;
then it applies the decoded operations in order. Every other reply is an error, and the queue is
as it was. -/
theorem request_taken_iff (reply : Reply) (w w' : SharedQueue) :
    (requestState codec w reply = some (.ok (), w') ↔
      ∃ payload rest fault state, reply = .stream (frame 8 payload ++ rest) fault ∧
        payload.length ≤ maxStateBytes ∧ codec.fromSlice payload = .ok state ∧
        state.foldlM SharedQueue.networkOperation w = some w') ∧
    (∀ e, requestState codec w reply = some (.error e, w') → w' = w) ∧
    ((¬ ∃ payload rest fault state, reply = .stream (frame 8 payload ++ rest) fault ∧
        payload.length ≤ maxStateBytes ∧ codec.fromSlice payload = .ok state) →
      ∃ e, requestState codec w reply = some (.error e, w)) := by
  cases hr : received codec reply with
  | error e =>
    refine ⟨⟨fun h => ?_, ?_⟩, fun e' h => ?_, fun _ => ⟨e, requestState_error hr⟩⟩
    · rw [requestState_error hr] at h
      exact absurd h (by simp)
    · rintro ⟨payload, rest, fault, state, hreply, hmax, hops, _⟩
      rw [received_ok.mpr ⟨payload, rest, fault, hreply, hmax, hops⟩] at hr
      exact absurd hr (by simp)
    · rw [requestState_error hr, Option.some.injEq, Prod.mk.injEq] at h
      exact h.2.symm
  | ok state =>
    have hrequest : ∀ result, requestState codec w reply = some (result, w') ↔
        result = .ok () ∧ state.foldlM SharedQueue.networkOperation w = some w' := by
      intro result
      simp only [requestState_ok hr, Option.map_eq_some_iff, Prod.mk.injEq]
      constructor
      · rintro ⟨_, hw, rfl, rfl⟩
        exact ⟨rfl, hw⟩
      · rintro ⟨rfl, hw⟩
        exact ⟨w', hw, rfl, rfl⟩
    refine ⟨?_, fun e h => absurd ((hrequest _).mp h).1 (by simp), fun hnot => ?_⟩
    swap
    · obtain ⟨payload, rest, fault, hreply, hmax, hops⟩ := received_ok.mp hr
      exact absurd ⟨payload, rest, fault, state, hreply, hmax, hops⟩ hnot
    rw [hrequest]
    constructor
    · rintro ⟨_, hw⟩
      obtain ⟨payload, rest, fault, hreply, hmax, hops⟩ := received_ok.mp hr
      exact ⟨payload, rest, fault, state, hreply, hmax, hops, hw⟩
    · rintro ⟨payload, rest, fault, state', hreply, hmax, hops, hw⟩
      rw [received_ok.mpr ⟨payload, rest, fault, hreply, hmax, hops⟩, Except.ok.injEq] at hr
      exact ⟨rfl, hr ▸ hw⟩

/-- What one peer sends is what the other applies, in the order in which it was sent; a state
that is too large and an answer that is cut anywhere are refused, and leave the queue as it was. -/
theorem state_transfer (hcodec : codec.fromSlice (codec.toVec state) = .ok state)
    (hlen : (codec.toVec state).length < 2 ^ 64) (w : SharedQueue) (fault : ℕ → String) :
    ((codec.toVec state).length ≤ maxStateBytes → ∀ rest,
      requestState codec w (.stream (accept codec state ++ rest) fault) =
        (state.foldlM SharedQueue.networkOperation w).map fun w => (.ok (), w)) ∧
    (maxStateBytes < (codec.toVec state).length → ∀ rest,
      requestState codec w (.stream (accept codec state ++ rest) fault) =
        some (.error (.generic ("peer claimed an unreasonably large state (" ++
          toString (codec.toVec state).length ++ " bytes)")), w)) ∧
    ∀ bytes, bytes <+: accept codec state → bytes ≠ accept codec state →
      ∃ e, requestState codec w (.stream bytes fault) = some (.error e, w) := by
  refine ⟨fun hmax rest => ?_, fun hmax rest => ?_, fun bytes hcut hne => ?_⟩
  · exact requestState_ok (received_accept hcodec hmax)
  · exact requestState_error (received_oversize hlen hmax)
  · obtain ⟨e, he⟩ := received_cut fault hlen hcut hne
    exact ⟨e, requestState_error he⟩

def earlyText : String := "[\x7b\"ADD\":\x7b\"file_path\":\"f\",\"crdt\":\x7b\"id\":1,\"peer\":1," ++
  "\"relation\":\x7b\"value\":\"a\",\"parent_id\":0,\"parent_peer\":0,\"deleted\":false\x7d\x7d," ++
  "\"row\":0\x7d\x7d]"

@[irreducible] def earlyBytes : Bytes := earlyText.toList.map fun c => UInt8.ofNat c.toNat

theorem early_size : earlyBytes.length ≤ maxStateBytes := by
  have hbytes : earlyBytes.length = earlyText.toList.length := by
    unfold earlyBytes
    exact List.length_map _
  have htext : earlyText.toList.length = earlyText.length := String.length_toList
  have hlen : earlyText.length ≤ maxStateBytes := by decide +kernel
  rw [hbytes, htext]
  exact hlen

/-- `serde_json` on one state. -/
def codecOf (bytes : Bytes) (state : List NetworkOp) : Codec := ⟨fun _ => bytes, fun slice =>
  if slice = bytes then .ok state else .error "expected value at line 1 column 1"⟩

theorem codecOf_decodes (bytes : Bytes) (state : List NetworkOp) :
    (codecOf bytes state).fromSlice ((codecOf bytes state).toVec state) = .ok state := if_pos rfl

theorem codecOf_size {bytes : Bytes} (state : List NetworkOp) (h : bytes.length ≤ maxStateBytes) :
    ((codecOf bytes state).toVec state).length ≤ maxStateBytes := h

theorem state_transfer_early : ∃ codec : Codec, codec.toVec [early] = earlyBytes ∧
    requestState codec SharedQueue.default (.stream (accept codec [early]) toString) =
      some (.ok (), ⟨none, [early]⟩) ∧
    ∃ e, requestState codec SharedQueue.default (.stream [] toString) =
      some (.error e, SharedQueue.default) := by
  have hsize := codecOf_size [early] early_size
  obtain ⟨hok, _, hcut⟩ := state_transfer (codecOf_decodes earlyBytes [early])
    (hsize.trans_lt (by decide)) SharedQueue.default toString
  have hwhole := hok hsize []
  rw [List.append_nil] at hwhole
  have hne : [] ≠ accept (codecOf earlyBytes [early]) [early] := fun h => by
    simpa [accept, frame, toBeBytes] using congrArg List.length h
  exact ⟨_, rfl, hwhole, hcut [] List.nil_prefix hne⟩

end Request

section Discovery

variable {κ : Type} {codec : Codec} {dial : κ → Reply} {peers : List κ} {num : ℕ}

/-- The states that requests to these peers bring; the others fail. -/
def answers (codec : Codec) (dial : κ → Reply) (peers : List κ) : List (List NetworkOp) :=
  peers.filterMap fun peer => (received codec (dial peer)).toOption

theorem answers_failed {peer : κ} {e : Error} (h : received codec (dial peer) = .error e) :
    answers codec dial (peer :: peers) = answers codec dial peers := by
  simp [answers, h, Except.toOption]

theorem answers_taken {peer : κ} {state : List NetworkOp}
    (h : received codec (dial peer) = .ok state) :
    answers codec dial (peer :: peers) = state :: answers codec dial peers := by
  simp [answers, h, Except.toOption]

/-- The loop asks from the front until `target` peers have answered, or to the end. -/
structure Asked (codec : Codec) (dial : κ → Reply) (target : ℕ) (peers asked : List κ) : Prop where
  front : asked <+: peers
  enough : (answers codec dial asked).length = min target (answers codec dial peers).length
  frugal : ∀ before peer after, asked = before ++ peer :: after →
    (answers codec dial before).length < target
  complete : (answers codec dial asked).length < target → asked = peers

theorem Asked.all {asked : List κ} (h : Asked codec dial (min num peers.length) peers asked)
    (hlt : (answers codec dial asked).length < num) : asked = peers := by
  by_cases hmin : (answers codec dial asked).length < min num peers.length
  · exact h.complete hmin
  · have hlen : (answers codec dial asked).length ≤ asked.length := List.length_filterMap_le _ _
    exact h.front.eq_of_length_le (by omega)

theorem discover_asks (codec : Codec) (dial : κ → Reply) (hnum : num ≤ peers.length) :
    ∃ asked, Asked codec dial num peers asked ∧ ∀ w, discover codec dial num peers w =
      ((answers codec dial asked).flatten.foldlM SharedQueue.networkOperation w).map
        fun w => (asked, w) := by
  induction peers generalizing num with
  | nil =>
    obtain rfl : num = 0 := Nat.le_zero.mp hnum
    exact ⟨[], ⟨List.prefix_rfl, rfl, fun _ _ _ h => absurd h (by simp), fun _ => rfl⟩, fun w => rfl⟩
  | cons peer peers ih =>
    cases num with
    | zero => exact ⟨[], ⟨List.nil_prefix, by simp [answers], fun _ _ _ h => absurd h (by simp),
        fun h => absurd h (Nat.not_lt_zero _)⟩, fun w => by simp [discover, answers]⟩
    | succ num =>
      have hlen : (answers codec dial peers).length ≤ peers.length := List.length_filterMap_le _ _
      cases hr : received codec (dial peer) with
      | error e =>
        obtain ⟨asked, h, hrun⟩ := ih (min_le_right (num + 1) peers.length)
        refine ⟨peer :: asked, ⟨List.cons_prefix_cons.mpr ⟨rfl, h.front⟩, ?_,
          fun before p after he => ?_, fun hlt => ?_⟩, fun w => ?_⟩
        · rw [answers_failed hr, answers_failed hr, h.enough]
          omega
        · cases before with
          | nil => exact Nat.succ_pos num
          | cons first before =>
            rw [List.cons_append, List.cons.injEq] at he
            obtain ⟨rfl, he⟩ := he
            rw [answers_failed hr]
            exact (h.frugal before p after he).trans_le (min_le_left _ _)
        · rw [answers_failed hr] at hlt
          rw [h.all hlt]
        · simp only [discover, requestState_error hr, answers_failed hr, Option.bind_eq_bind,
            Option.bind_some, hrun]
          cases (answers codec dial asked).flatten.foldlM SharedQueue.networkOperation w <;> rfl
      | ok state =>
        obtain ⟨asked, h, hrun⟩ := ih (Nat.succ_le_succ_iff.mp hnum)
        refine ⟨peer :: asked, ⟨List.cons_prefix_cons.mpr ⟨rfl, h.front⟩, ?_,
          fun before p after he => ?_, fun hlt => ?_⟩, fun w => ?_⟩
        · rw [answers_taken hr, answers_taken hr, List.length_cons, List.length_cons, h.enough]
          omega
        · cases before with
          | nil => exact Nat.succ_pos num
          | cons first before =>
            rw [List.cons_append, List.cons.injEq] at he
            obtain ⟨rfl, he⟩ := he
            rw [answers_taken hr]
            exact Nat.succ_lt_succ (h.frugal before p after he)
        · rw [answers_taken hr, List.length_cons] at hlt
          rw [h.complete (Nat.succ_lt_succ_iff.mp hlt)]
        · rw [discover, requestState_ok hr, answers_taken hr, List.flatten_cons, List.foldlM_append]
          cases state.foldlM SharedQueue.networkOperation w with
          | none => rfl
          | some w =>
            simp only [Option.map_some, Option.bind_eq_bind, Option.bind_some, hrun]
            cases (answers codec dial asked).flatten.foldlM SharedQueue.networkOperation w <;> rfl

/-- The start never takes a peer from an empty list. It asks each peer once, in their order, and
stops at the third that answers; if fewer answer, it asks them all. The queue gets what they sent,
one answer after the other, and nothing else. -/
theorem hydrate_asks (codec : Codec) (dial : κ → Reply) (peers : List κ) :
    ∃ asked, asked <+: peers ∧
      (answers codec dial asked).length = min 3 (answers codec dial peers).length ∧
      (∀ before peer after, asked = before ++ peer :: after →
        (answers codec dial before).length < 3) ∧
      ((answers codec dial asked).length < 3 → asked = peers) ∧
      ∀ w, hydrate codec dial peers w =
        ((answers codec dial asked).flatten.foldlM SharedQueue.networkOperation w).map
          fun w => (asked, w) := by
  obtain ⟨asked, h, hrun⟩ := discover_asks codec dial (min_le_right 3 peers.length)
  have hlen : (answers codec dial peers).length ≤ peers.length := List.length_filterMap_le _ _
  refine ⟨asked, h.front, ?_, fun before peer after he => ?_, h.all, hrun⟩
  · rw [h.enough]
    omega
  · exact (h.frugal before peer after he).trans_le (min_le_left _ _)

end Discovery

end StateRequest
