import Shario.DeliveryRuns
import Shario.QueueRuns

/-! The counter of the queue: it covers every id in the tree, in the backlogs and among the
identities given away, until a received id leaves no room above it. -/
namespace NewIdentities

open CrdtTypes FileTree FilePlacement FileSafety DirectoryTree ShareQueue WorklistDrain TreeCalls
  QueueSteps IdeSteps QueueRuns

structure Below (N : ℕ) (q : SharQueue) : Prop where
  files : AllFiles (fun f => Sound f ∧ ∀ x ∈ f.characters, x.1 ≤ N) q.tree
  waits : ∀ k op, Waits q.networkBacklog k (.add op) → op.crdt.id ≤ N
  listed : ∀ op, .add op ∈ q.networkWorklist → op.crdt.id ≤ N
  tags : ∀ tag x, q.tagIdentities.lookup tag = some x → x.1 ≤ N
  confirmed : ∀ c, .ideAddConfirm c ∈ q.fired → c.id ≤ N

def raise (n : ℕ) : QueueCall → ℕ
  | .network (.add op) => max n op.crdt.id
  | .network (.remove _) => n
  | .ideAdd _ => n + 1
  | .ideRemove _ => n

def isIdeAdd : QueueCall → Bool
  | .ideAdd _ => true
  | _ => false

/-- Room for one more IDE add: above the loaded characters, and above every received id, with
the IDE adds that came after it. -/
structure Headroom (n : ℕ) (calls : List QueueCall) : Prop where
  loaded : n + calls.countP isIdeAdd + 1 < 2 ^ 32
  received : ∀ pre op post, calls = pre ++ .network (.add op) :: post →
    op.crdt.id + post.countP isIdeAdd + 1 < 2 ^ 32

/-- After `calls`, the next IDE add gets and confirms an identity that is new. -/
def GetsNew (q : SharQueue) (calls : List QueueCall) (op : IdeAdd) : Prop :=
  ∃ id, tick q.counter = some id ∧ (id, q.peer) ≠ root ∧
    (∀ file ∈ q.tree.files, (id, q.peer) ∉ file.characters) ∧
    (∀ c, .ideAddConfirm c ∈ q.fired → (c.id, c.peer) ≠ (id, q.peer)) ∧
    (∀ received, .network (.add received) ∈ calls → received.crdt.id < id) ∧
    ∀ q', q.addIdeOperation op = some q' →
      ∃ l, q'.fired = q.fired ++ .ideAddConfirm ⟨op.tag, id, q.peer⟩ :: l

section Fields

variable (q : SharQueue) (x : Identity) (op : IdeAdd) (n : ℕ)

@[simp] theorem queueNetwork_counter : (q.queueNetworkBacklog x).counter = q.counter := by
  unfold SharQueue.queueNetworkBacklog
  split <;> rfl

@[simp] theorem queueNetwork_tags :
    (q.queueNetworkBacklog x).tagIdentities = q.tagIdentities := by
  unfold SharQueue.queueNetworkBacklog
  split <;> rfl

@[simp] theorem queueIde_counter : (q.queueIdeBacklog x).counter = q.counter := by
  unfold SharQueue.queueIdeBacklog
  split <;> rfl

@[simp] theorem queueIde_fired : (q.queueIdeBacklog x).fired = q.fired := by
  unfold SharQueue.queueIdeBacklog
  split <;> rfl

@[simp] theorem enlisted_counter : (enlisted q op n).counter = n := by
  unfold enlisted SharQueue.queueTagBacklog
  split <;> rfl

@[simp] theorem enlisted_network : (enlisted q op n).networkBacklog = q.networkBacklog := by
  unfold enlisted SharQueue.queueTagBacklog
  split <;> rfl

@[simp] theorem enlisted_tags :
    (enlisted q op n).tagIdentities = q.tagIdentities.insert op.tag (n, q.peer) := by
  unfold enlisted SharQueue.queueTagBacklog
  split <;> rfl

@[simp] theorem enlisted_fired :
    (enlisted q op n).fired = q.fired ++ [.ideAddConfirm ⟨op.tag, n, q.peer⟩] := by
  unfold enlisted SharQueue.queueTagBacklog
  split <;> rfl

end Fields

section Steps

variable {N M : ℕ} {q q' : SharQueue} {t u : SharDirectory} {path : PathBuf} {x : Identity}
  {c : CRDT} {o : Outcome} {item : NetworkOp} {op : IdeAdd} {calls : List QueueCall}

theorem below_mono (h : Below N q) (hle : N ≤ M) : Below M q where
  files := fun ref f hf => ⟨(h.files ref f hf).1, fun x hx => ((h.files ref f hf).2 x hx).trans hle⟩
  waits := fun k op hw => (h.waits k op hw).trans hle
  listed := fun op hl => (h.listed op hl).trans hle
  tags := fun tag x hx => (h.tags tag x hx).trans hle
  confirmed := fun c hc => (h.confirmed c hc).trans hle

theorem below_added (h : AllFiles (fun f => Sound f ∧ ∀ x ∈ f.characters, x.1 ≤ N) t)
    (hc : c.id ≤ N) (ha : TreeAdded t path c o u) :
    AllFiles (fun f => Sound f ∧ ∀ x ∈ f.characters, x.1 ≤ N) u := by
  refine ha.allFiles h fun ref f g _ _ hf hg => ⟨sound_added hf.1 hg, fun x hx => ?_⟩
  rcases added_characters hg with he | ⟨_, he⟩
  · exact hf.2 x (he ▸ hx)
  · rw [he] at hx
    rcases Finmap.mem_insert.mp hx with rfl | hx
    · exact hc
    · exact hf.2 x hx

theorem below_removed (h : AllFiles (fun f => Sound f ∧ ∀ x ∈ f.characters, x.1 ≤ N) t)
    (hx : x ≠ root) (hr : TreeRemoved t path x o u) :
    AllFiles (fun f => Sound f ∧ ∀ x ∈ f.characters, x.1 ≤ N) u := by
  refine hr.allFiles h fun ref f g _ _ hf hg => ⟨sound_removed hf.1 hx hg, ?_⟩
  intro y hy
  rcases removed_characters hg with he | ⟨rel, hl, he⟩
  · rw [he] at hy
    exact hf.2 y hy
  · rw [he] at hy
    exact hf.2 y ((CharacterTree.mem_mark hl).mp hy)

theorem confirmed_fire {cb : Callback} (h : ∀ c, .ideAddConfirm c ∈ q.fired → c.id ≤ N)
    (hcb : ∀ c, cb ≠ .ideAddConfirm c) : ∀ c, .ideAddConfirm c ∈ (q.fire cb).fired → c.id ≤ N := by
  intro c hc
  rw [fire_fired, List.mem_append, List.mem_singleton] at hc
  exact hc.elim (h c) fun he => absurd he.symm (hcb c)

theorem below_waiting {k : Identity} (h : Below N q) (hi : ∀ op, item = .add op → op.crdt.id ≤ N) :
    Below N (waiting q k item) := by
  refine { h with waits := fun j op hw => ?_ }
  rw [waiting_backlog, waits_push] at hw
  exact hw.elim (h.waits j op) fun he => hi op he.2.symm

theorem retried_counter (h : Retried q item q') : q'.counter = raise q.counter (.network item) := by
  cases h with
  | rootAdd _ => rfl
  | landed _ _ => exact queueNetwork_counter _ _
  | repeated _ _ => rfl
  | early _ _ => rfl
  | rootRemove _ => rfl
  | fallen _ _ => rfl
  | again _ _ => rfl
  | earlyRemove _ _ => rfl

theorem retried_below (h : Below N q) (hi : ∀ op, item = .add op → op.crdt.id ≤ N)
    (hr : Retried q item q') : Below N q' := by
  cases hr with
  | rootAdd _ => exact ⟨h.files, h.waits, h.listed, h.tags, h.confirmed⟩
  | @landed op pos t _ ht =>
    refine ⟨?_, fun k op hw => ?_, fun op hl => ?_, fun tag x hx => ?_, fun c hc => ?_⟩
    · rw [queueNetwork_tree]
      exact below_added h.files (hi op rfl) ht
    · rw [queueNetwork_backlog] at hw
      exact h.waits k op hw.1
    · rw [queueNetwork_worklist] at hl
      exact hl.elim (h.listed op) (h.waits _ op)
    · rw [queueNetwork_tags] at hx
      exact h.tags tag x hx
    · rw [queueNetwork_fired] at hc
      exact confirmed_fire h.confirmed (by simp) c hc
  | @repeated op t _ ht =>
    exact ⟨below_added h.files (hi op rfl) ht, h.waits, h.listed, h.tags, h.confirmed⟩
  | @early op e t _ ht =>
    refine below_waiting ⟨below_added h.files (hi op rfl) ht, h.waits, h.listed, h.tags,
      h.confirmed⟩ fun op' he => ?_
    obtain rfl := NetworkOp.add.inj he
    exact hi op rfl
  | rootRemove _ => exact h
  | fallen hx ht =>
    exact ⟨below_removed h.files hx ht, h.waits, h.listed, h.tags,
      confirmed_fire h.confirmed (by simp)⟩
  | again hx ht => exact ⟨below_removed h.files hx ht, h.waits, h.listed, h.tags, h.confirmed⟩
  | earlyRemove hx ht =>
    exact below_waiting ⟨below_removed h.files hx ht, h.waits, h.listed, h.tags, h.confirmed⟩
      (by simp)

theorem held_below (h : Below N q) (hh : Held q op q') : Below N q' ∧ q'.counter = q.counter := by
  cases hh with
  | untagged _ _ => exact ⟨⟨h.files, h.waits, h.listed, h.tags, h.confirmed⟩, rfl⟩
  | repeated _ hx ht =>
    exact ⟨⟨below_added h.files (h.tags _ _ hx) ht, h.waits, h.listed, h.tags, h.confirmed⟩, rfl⟩
  | early _ hx ht =>
    exact ⟨⟨below_added h.files (h.tags _ _ hx) ht, h.waits, h.listed, h.tags, h.confirmed⟩, rfl⟩

theorem shown_below {a b : NetworkAdd} (h : Below N q) : Below N (q.fire (.ideAdd a b)) :=
  ⟨h.files, h.waits, h.listed, h.tags, confirmed_fire h.confirmed (by simp)⟩

theorem landed_below {parent : Identity} {pos : Position} (h : Below N q)
    (hl : Lands q op x parent pos t) : Below N ((withTree q t).queueIdeBacklog x) := by
  refine ⟨?_, fun k op hw => ?_, fun op ho => ?_, fun tag y hy => ?_, fun c hc => ?_⟩
  · rw [queueIde_tree]
    exact below_added h.files (h.tags _ _ hl.tagged) hl.added
  · rw [queueIde_network] at hw
    exact h.waits k op hw
  · rw [queueIde_networkWorklist] at ho
    exact h.listed op ho
  · rw [queueIde_tags] at hy
    exact h.tags tag y hy
  · rw [queueIde_fired] at hc
    exact h.confirmed c hc

theorem retriedIde_below (h : Below N q) (hr : RetriedIde q op q') :
    Below N q' ∧ q'.counter = q.counter := by
  cases hr with
  | held hh => exact held_below h hh
  | landed hl => exact ⟨shown_below (landed_below h hl), queueIde_counter _ _⟩

theorem enlisted_below (h : Below q.counter q) :
    Below (q.counter + 1) (enlisted q op (q.counter + 1)) := by
  have hup := below_mono h (Nat.le_succ _)
  refine ⟨?_, fun k i hw => ?_, fun i hl => ?_, fun tag y hy => ?_, fun c hc => ?_⟩
  · rw [enlisted_tree]
    exact hup.files
  · rw [enlisted_network] at hw
    exact hup.waits k i hw
  · rw [enlisted_networkWorklist] at hl
    exact hup.listed i hl
  · rw [enlisted_tags] at hy
    by_cases ht : tag = op.tag
    · subst ht
      rw [Finmap.lookup_insert, Option.some.injEq] at hy
      rw [← hy]
    · rw [Finmap.lookup_insert_of_ne _ ht] at hy
      exact hup.tags tag y hy
  · rw [enlisted_fired, List.mem_append, List.mem_singleton] at hc
    rcases hc with hc | hc
    · exact hup.confirmed c hc
    · rw [Callback.ideAddConfirm.inj hc]

theorem deliver_below (hidle : Idle q) (h : Below q.counter q) (hd : deliver q item = some q') :
    Below q'.counter q' ∧ q'.counter = raise q.counter (.network item) := by
  generalize hN : raise q.counter (.network item) = N
  have hle : q.counter ≤ N := by
    rw [← hN]
    cases item with
    | add op => exact Nat.le_max_left _ _
    | remove op => exact le_rfl
  have hid : ∀ op, item = .add op → op.crdt.id ≤ N := by
    rintro op rfl
    rw [← hN]
    exact Nat.le_max_right _ _
  have hJ := deliver_keeps (J := fun p => (p.counter = N ∧ Below N p) ∨ p = handed q item) ?_ ?_
    hidle.network (Or.inr rfl) hd
  · obtain ⟨⟨hc, hb⟩ | rfl, hw⟩ := hJ
    · exact ⟨hc ▸ hb, hc⟩
    · exact absurd hw (by simp [handed])
  · rintro p (⟨_, hp⟩ | rfl)
    · exact fun ref f hf => (hp.files ref f hf).1
    · exact fun ref f hf => (h.files ref f hf).1
  · rintro p i p₁ p₂ hp hpop _ hr
    apply Or.inl
    rcases hp with ⟨hc, hp⟩ | rfl
    · obtain ⟨rest, hl, rfl⟩ := pop_eq hpop
      have hi : ∀ op, i = .add op → op.crdt.id ≤ N := by
        rintro op rfl
        exact hp.listed op (by simp [hl])
      have hp₁ : Below N { p with networkWorklist := rest } :=
        { hp with listed := fun op ho => hp.listed op (by simp [hl, show _ ∈ rest from ho]) }
      refine ⟨?_, retried_below hp₁ hi hr⟩
      rw [retried_counter hr]
      cases i with
      | add op => exact max_eq_left (hc ▸ hi op rfl) |>.trans hc
      | remove op => exact hc
    · rw [handed_pop hidle.network, Option.some.injEq, Prod.mk.injEq] at hpop
      obtain ⟨rfl, rfl⟩ := hpop
      exact ⟨(retried_counter hr).trans hN, retried_below (below_mono h hle) hid hr⟩

theorem addIde_below (h : Below q.counter q) (ha : q.addIdeOperation op = some q') :
    Below q'.counter q' ∧ q'.counter = q.counter + 1 := by
  have hstart : ∀ n, tick q.counter = some n →
      Below (q.counter + 1) (enlisted q op n) ∧ n = q.counter + 1 := by
    intro n hn
    obtain rfl := (tick_eq_some.mp hn).2
    exact ⟨enlisted_below h, rfl⟩
  have hJ := addIde_invariant (J := fun p => Below (q.counter + 1) p ∧ p.counter = q.counter + 1)
    (fun p hp ref f hf => (hp.1.files ref f hf).1) (fun p a b hp => ⟨shown_below hp.1, hp.2⟩)
    ?_ ?_ ?_ (fun ref f hf => (h.files ref f hf).1) ha
  · exact ⟨hJ.1.2 ▸ hJ.1.1, hJ.1.2⟩
  · intro n p hn hh
    obtain ⟨hb, rfl⟩ := hstart n hn
    obtain ⟨hb', hc⟩ := held_below hb hh
    exact ⟨hb', hc.trans (enlisted_counter _ _ _)⟩
  · intro n x parent pos t hn hl
    obtain ⟨hb, rfl⟩ := hstart n hn
    refine ⟨landed_below hb hl, ?_⟩
    rw [queueIde_counter]
    exact enlisted_counter _ _ _
  · rintro p i p₁ p₂ ⟨hp, hc⟩ hpop _ hr
    obtain ⟨rest, _, rfl⟩ := popIde_eq hpop
    have hp₁ : Below (q.counter + 1) { p with ideWorklist := rest } :=
      ⟨hp.files, hp.waits, hp.listed, hp.tags, hp.confirmed⟩
    obtain ⟨hb, hc'⟩ := retriedIde_below hp₁ hr
    exact ⟨hb, hc'.trans hc⟩

theorem call_below {call : QueueCall} (hidle : Idle q) (h : Below q.counter q)
    (hc : call.apply q = some q') : Below q'.counter q' ∧ q'.counter = raise q.counter call := by
  cases call with
  | network item => exact deliver_below hidle h hc
  | ideAdd op => exact addIde_below h hc
  | ideRemove op =>
    rcases removeIde_cases (fun ref f hf => (h.files ref f hf).1) op with ⟨q₁, he, hr⟩ | ⟨he, _⟩
    · have hq : q₁ = q' := Option.some.inj (he.symm.trans hc)
      subst hq
      cases hr with
      | rootRemove _ => exact ⟨h, rfl⟩
      | fallen hx ht =>
        exact ⟨⟨below_removed h.files hx ht, h.waits, h.listed, h.tags,
          confirmed_fire h.confirmed (by simp)⟩, rfl⟩
      | again hx ht =>
        exact ⟨⟨below_removed h.files hx ht, h.waits, h.listed, h.tags, h.confirmed⟩, rfl⟩
      | early hx ht =>
        exact ⟨below_waiting ⟨below_removed h.files hx ht, h.waits, h.listed, h.tags,
          h.confirmed⟩ (by simp), rfl⟩
    · exact absurd (he.symm.trans hc) (by simp)

theorem run_below (hidle : Idle q) (h : Below q.counter q)
    (hrun : calls.foldlM QueueCall.apply q = some q') :
    Below q'.counter q' ∧ q'.counter = calls.foldl raise q.counter := by
  induction calls generalizing q with
  | nil =>
    cases hrun
    exact ⟨h, rfl⟩
  | cons call calls ih =>
    rw [List.foldlM_cons, Option.bind_eq_bind, Option.bind_eq_some_iff] at hrun
    obtain ⟨q₁, hq₁, hrun⟩ := hrun
    obtain ⟨h₁, hc₁⟩ := call_below hidle h hq₁
    have hidle₁ : Idle q₁ := (call_keeps (P := AllFiles Sound) (fun _ h => h)
      (fun _ _ _ _ _ hs ha => ha.sound hs) (fun _ _ _ _ _ hs hx hr => hr.sound hx hs) hidle
      (fun ref f hf => (h.files ref f hf).1) hq₁).2
    rw [List.foldl_cons, ← hc₁]
    exact ih hidle₁ h₁ hrun

theorem raise_le (n : ℕ) (call : QueueCall) : n ≤ raise n call := by
  cases call with
  | network item =>
    cases item with
    | add op => exact Nat.le_max_left _ _
    | remove op => exact le_rfl
  | ideAdd op => exact Nat.le_succ n
  | ideRemove op => exact le_rfl

theorem foldl_raise_le (calls : List QueueCall) (n : ℕ) : n ≤ calls.foldl raise n := by
  induction calls generalizing n with
  | nil => exact le_rfl
  | cons call calls ih => exact (raise_le n call).trans (ih _)

theorem received_le {received : NetworkAdd} (h : .network (.add received) ∈ calls) (n : ℕ) :
    received.crdt.id ≤ calls.foldl raise n := by
  obtain ⟨pre, post, rfl⟩ := List.append_of_mem h
  rw [List.foldl_append, List.foldl_cons]
  exact (Nat.le_max_right _ _).trans (foldl_raise_le post _)

theorem headroom_iff (calls : List QueueCall) (n : ℕ) :
    calls.foldl raise n + 1 < 2 ^ 32 ↔ Headroom n calls := by
  induction calls generalizing n with
  | nil => exact ⟨fun h => ⟨h, by simp⟩, fun h => h.loaded⟩
  | cons call calls ih =>
    have hlater : (∀ pre op post, calls = pre ++ .network (.add op) :: post →
        op.crdt.id + post.countP isIdeAdd + 1 < 2 ^ 32) →
        ∀ pre op post, call :: calls = pre ++ .network (.add op) :: post → pre ≠ [] →
        op.crdt.id + post.countP isIdeAdd + 1 < 2 ^ 32 := by
      intro h pre op post he hne
      cases pre with
      | nil => exact absurd rfl hne
      | cons c pre => exact h pre op post (List.cons.inj he).2
    have hrest : Headroom n (call :: calls) → ∀ pre op post,
        calls = pre ++ .network (.add op) :: post →
        op.crdt.id + post.countP isIdeAdd + 1 < 2 ^ 32 := fun h pre op post he =>
      h.received (call :: pre) op post (by rw [he]; rfl)
    rw [List.foldl_cons, ih]
    have hwhole : ∀ m, Headroom m calls → n ≤ m → (isIdeAdd call = true → n + 1 ≤ m) →
        (∀ op, call = .network (.add op) → op.crdt.id ≤ m) → Headroom n (call :: calls) := by
      intro m h hnm hide hop
      refine ⟨?_, fun pre op post he => ?_⟩
      · have hloaded := h.loaded
        rw [List.countP_cons]
        split <;> rename_i hc
        · have := hide hc
          omega
        · omega
      · by_cases hpre : pre = []
        · subst hpre
          obtain ⟨rfl, rfl⟩ := List.cons.inj he
          have hloaded := h.loaded
          have := hop op rfl
          omega
        · exact hlater h.received pre op post he hpre
    refine ⟨fun h => hwhole _ h (raise_le n call) ?_ ?_, fun h => ⟨?_, hrest h⟩⟩
    · cases call <;> simp [isIdeAdd, raise]
    · rintro op rfl
      exact Nat.le_max_right _ _
    · have hloaded := h.loaded
      rw [List.countP_cons] at hloaded
      cases call with
      | network i =>
        cases i with
        | add op =>
          have hop := h.received [] op calls rfl
          simp only [raise, isIdeAdd, Bool.false_eq_true, if_false] at hloaded ⊢
          rcases max_cases n op.crdt.id with ⟨he, _⟩ | ⟨he, _⟩
          · rw [he]; exact hloaded
          · rw [he]; exact hop
        | remove op => exact hloaded
      | ideAdd op =>
        simp only [raise, isIdeAdd, if_true] at hloaded ⊢
        omega
      | ideRemove op => exact hloaded

theorem loaded_below {dirPath : PathBuf} {read : Except String (List FsEntry)} {peer : ℕ}
    (h : SharQueue.new dirPath read peer = some (.ok q)) : Below q.counter q ∧ Idle q := by
  have hfiles := DeliveryRuns.loaded_files h
  refine ⟨⟨fun ref f hf => ⟨(hfiles ref f hf).toSound, (hfiles ref f hf).below⟩, ?_, ?_, ?_, ?_⟩,
    loaded_idle h⟩
  all_goals
    obtain ⟨_, _, hq⟩ := PathRouting.new_tree h
    rw [hq]
  · rintro k op ⟨l, hl, _⟩
    simp at hl
  · simp
  · simp
  · simp

theorem confirms_first (hs : AllFiles Sound q.tree) {n : ℕ} (hn : tick q.counter = some n)
    (h : q.addIdeOperation op = some q') :
    ∃ l, q'.fired = q.fired ++ .ideAddConfirm ⟨op.tag, n, q.peer⟩ :: l := by
  have hgrow : ∀ {p p' : SharQueue} {i : IdeAdd}, RetriedIde p i p' → ∃ l, p'.fired = p.fired ++ l := by
    intro p p' i hr
    cases hr with
    | held hh => cases hh <;> exact ⟨[], by simp [waitingTag, waitingIde, withTree]⟩
    | landed hl => exact ⟨_, by rw [fire_fired, queueIde_fired, withTree_fired]⟩
  have hsound : ∀ {p p' : SharQueue} {i : IdeAdd}, AllFiles Sound p.tree → RetriedIde p i p' →
      AllFiles Sound p'.tree := fun hp hr =>
    retriedIde_keeps (P := AllFiles Sound) (fun _ _ _ _ _ hs ha => ha.sound hs) hp hr
  have hJ := addIde_invariant (J := fun p => AllFiles Sound p.tree ∧
      ∃ l, p.fired = q.fired ++ .ideAddConfirm ⟨op.tag, n, q.peer⟩ :: l)
    (fun _ hp => hp.1) (fun p a b hp => ⟨hp.1, ?_⟩) ?_ ?_ ?_ hs h
  · exact hJ.1.2
  · obtain ⟨l, hl⟩ := hp.2
    exact ⟨l ++ [.ideAdd a b], by simp [hl]⟩
  · intro m p hm hh
    rw [hn, Option.some.injEq] at hm
    subst hm
    obtain ⟨l, hl⟩ := hgrow (.held hh)
    refine ⟨hsound (by rw [enlisted_tree]; exact hs) (.held hh), l, ?_⟩
    rw [hl, enlisted_fired]
    simp
  · intro m x parent pos t hm hl
    rw [hn, Option.some.injEq] at hm
    subst hm
    refine ⟨?_, [], ?_⟩
    · rw [queueIde_tree]
      exact hl.added.sound (by rw [enlisted_tree]; exact hs)
    · rw [queueIde_fired, withTree_fired, enlisted_fired]
  · rintro p i p₁ p₂ ⟨hp, l, hl⟩ hpop _ hr
    obtain ⟨rest, _, rfl⟩ := popIde_eq hpop
    obtain ⟨l', hl'⟩ := hgrow hr
    refine ⟨hsound (p := { p with ideWorklist := rest }) hp hr, l ++ l', ?_⟩
    rw [hl', show ({ p with ideWorklist := rest } : SharQueue).fired = p.fired from rfl, hl]
    simp

theorem new_identity_iff {dirPath : PathBuf} {read : Except String (List FsEntry)} {peer : ℕ}
    {q₀ : SharQueue} (hl : SharQueue.new dirPath read peer = some (.ok q₀))
    (hrun : calls.foldlM QueueCall.apply q₀ = some q) (op : IdeAdd) :
    GetsNew q calls op ↔ Headroom q₀.counter calls := by
  obtain ⟨hbelow, hidle⟩ := loaded_below hl
  obtain ⟨hq, hcount⟩ := run_below hidle hbelow hrun
  rw [← headroom_iff, ← hcount]
  constructor
  · rintro ⟨id, htick, _⟩
    exact (tick_eq_some.mp htick).1
  · intro hroom
    have htick : tick q.counter = some (q.counter + 1) := tick_eq_some.mpr ⟨hroom, rfl⟩
    refine ⟨q.counter + 1, htick, ?_, fun file hf hin => ?_, fun c hc he => ?_, fun r hr => ?_,
      fun q' h => confirms_first (fun ref f hf => (hq.files ref f hf).1) htick h⟩
    · simp [root]
    · obtain ⟨ref, hf⟩ := mem_files.mp hf
      have hle := (hq.files ref file hf).2 _ hin
      simp only at hle
      omega
    · have hle := hq.confirmed c hc
      rw [Prod.mk.injEq] at he
      omega
    · have hle := received_le hr q₀.counter
      omega

end Steps

def fromPeer (id : ℕ) : QueueCall := .network (.add ⟨[.normal "f"], ⟨id, 7, .new 'a' 0 0⟩, 0⟩)

def typed : IdeAdd := ⟨[.rootDir, .normal "s", .normal "f"], some 0, some 0, none, 'b', 1, 0⟩

theorem new_identity_iff_small : ∃ q : SharQueue, q.counter = 41 ∧
    (GetsNew q [fromPeer 41] typed ↔ Headroom 0 [fromPeer 41]) := by
  have hq : ∃ q₀ q : SharQueue, SharQueue.new [.rootDir, .normal "s"] emptyEntries 1 = some (.ok q₀) ∧
      q₀.counter = 0 ∧ [fromPeer 41].foldlM QueueCall.apply q₀ = some q ∧ q.counter = 41 :=
    ⟨_, _, rfl, rfl, rfl, rfl⟩
  obtain ⟨q₀, q, hl, h0, hrun, hc⟩ := hq
  exact ⟨q, hc, h0 ▸ new_identity_iff hl hrun typed⟩

/-- The largest id that a peer can send takes all the room. -/
theorem last_id_overflows : ¬ ∀ (dirPath : PathBuf) (read : Except String (List FsEntry)) (peer : ℕ)
    (q₀ q : SharQueue) (calls : List QueueCall) (op : IdeAdd),
    SharQueue.new dirPath read peer = some (.ok q₀) →
    calls.foldlM QueueCall.apply q₀ = some q → GetsNew q calls op := by
  intro h
  have hq : ∃ q₀ q : SharQueue, SharQueue.new [.rootDir, .normal "s"] emptyEntries 1 = some (.ok q₀) ∧
      [fromPeer (2 ^ 32 - 1)].foldlM QueueCall.apply q₀ = some q ∧ q.counter = 2 ^ 32 - 1 :=
    ⟨_, _, rfl, rfl, rfl⟩
  obtain ⟨q₀, q, hl, hrun, hc⟩ := hq
  obtain ⟨id, htick, _⟩ := h _ _ _ q₀ q _ typed hl hrun
  have hroom := (tick_eq_some.mp htick).1
  omega

end NewIdentities
