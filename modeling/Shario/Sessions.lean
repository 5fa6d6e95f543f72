import Shario.ExactlyOnce
import Shario.NewIdentities

/-! The IDE adds of several connections on one queue: the identity that each is given, the
parent that its own connection means, and where it is until it lands. -/
namespace Sessions

open CrdtTypes FileTree FilePlacement FileSafety Convergence DirectoryTree ShareQueue WorklistDrain
  TreeCalls QueueSteps NetworkDelivery IdeSteps ExactlyOnce NewIdentities

/-- An add and the connection that sends it. -/
structure Sent where
  conn : ℕ
  op : IdeAdd

def tagOf (op : IdeAdd) : Option ℕ :=
  match op.parentId, op.parentPeer with
  | some _, some _ => none
  | _, _ => op.parentTag

section Meaning

variable (q₀ : SharQueue) (calls : List Sent)

def given (i : ℕ) : Identity := (q₀.counter + i + 1, q₀.peer)

/-- What the connection `conn` has sent under `tag`. -/
def tagged (conn tag : ℕ) : Option Identity :=
  (calls.findIdx? fun s => s.conn = conn ∧ s.op.tag = tag).map (given q₀)

def meant (s : Sent) : Option Identity :=
  match s.op.parentId, s.op.parentPeer with
  | some id, some peer => some (id, peer)
  | _, _ => s.op.parentTag.bind (tagged q₀ calls s.conn)

/-- A connection does not use a tag twice. -/
def DistinctTags : Prop :=
  ∀ (i j : ℕ) (a b : Sent), calls[i]? = some a → calls[j]? = some b → a.conn = b.conn →
    a.op.tag = b.op.tag → i = j

/-- The character that the `i`-th add stands for, under its own identity and parent. -/
def Typed (ref : FileRef) (x : Identity) (s : CrdtRelation) : Prop :=
  ∃ i a p, calls[i]? = some a ∧ x = given q₀ i ∧ q₀.tree.findFile a.op.filePath = some ref ∧
    meant q₀ calls a = some p ∧ s = .new a.op.val p.1 p.2

end Meaning

section Tags

variable {q₀ q q' : SharQueue} {calls : List Sent} {a s : Sent} {i j conn tag : ℕ} {op : IdeAdd}
  {x : Identity}

theorem given_inj (h : given q₀ i = given q₀ j) : i = j := by
  simp only [given, Prod.mk.injEq] at h
  omega

theorem naming_cases (op : IdeAdd) :
    (∃ id peer, op.parentId = some id ∧ op.parentPeer = some peer ∧ tagOf op = none) ∨
    ((op.parentId = none ∨ op.parentPeer = none) ∧ tagOf op = op.parentTag) := by
  cases hid : op.parentId with
  | none => exact Or.inr ⟨Or.inl rfl, by simp [tagOf, hid]⟩
  | some id =>
    cases hpeer : op.parentPeer with
    | none => exact Or.inr ⟨Or.inr rfl, by simp [tagOf, hpeer]⟩
    | some peer => exact Or.inl ⟨id, peer, rfl, rfl, by simp [tagOf, hid, hpeer]⟩

theorem by_tag (q₀ q : SharQueue) (calls : List Sent)
    (h : s.op.parentId = none ∨ s.op.parentPeer = none) :
    meant q₀ calls s = s.op.parentTag.bind (tagged q₀ calls s.conn) ∧
      q.ideParent s.op = s.op.parentTag.bind fun tag => q.tagIdentities.lookup tag := by
  rcases h with h | h <;> simp [meant, SharQueue.ideParent, h]

theorem meant_of_tagOf (q₀ q : SharQueue) (calls : List Sent) (s : Sent)
    (h : tagOf s.op = some tag) :
    meant q₀ calls s = tagged q₀ calls s.conn tag ∧
      q.ideParent s.op = q.tagIdentities.lookup tag := by
  rcases naming_cases s.op with ⟨_, _, _, _, hn⟩ | ⟨hby, ht⟩
  · rw [hn] at h
    exact absurd h (by simp)
  · obtain ⟨hm, hp⟩ := by_tag q₀ q calls hby
    rw [hm, hp, ← ht, h]
    exact ⟨rfl, rfl⟩

theorem parent_untagged (q₀ q q' : SharQueue) (calls calls' : List Sent)
    (h : tagOf s.op = none) :
    q'.ideParent s.op = q.ideParent s.op ∧ meant q₀ calls' s = meant q₀ calls s ∧
      q.ideParent s.op = meant q₀ calls s := by
  rcases naming_cases s.op with ⟨id, peer, hid, hpeer, _⟩ | ⟨hby, ht⟩
  · simp [SharQueue.ideParent, meant, hid, hpeer]
  · obtain ⟨hm, hp⟩ := by_tag q₀ q calls hby
    obtain ⟨hm', hp'⟩ := by_tag q₀ q' calls' hby
    rw [hm, hp, hm', hp', ← ht, h]
    exact ⟨rfl, rfl, rfl⟩

theorem tagOf_of_waiting (h : q.ideParent op = none) (ht : op.parentTag = some tag) :
    tagOf op = some tag := by
  rcases naming_cases op with ⟨id, peer, hid, hpeer, _⟩ | ⟨_, he⟩
  · simp [SharQueue.ideParent, hid, hpeer] at h
  · rw [he, ht]

theorem ideParent_congr (h : q'.tagIdentities = q.tagIdentities) (op : IdeAdd) :
    q'.ideParent op = q.ideParent op := by
  unfold SharQueue.ideParent
  rw [h]

theorem getElem?_snoc {α : Type} {a : α} (calls : List α) (s : α) (i : ℕ) :
    (calls ++ [s])[i]? = some a ↔ calls[i]? = some a ∨ i = calls.length ∧ a = s := by
  rcases Nat.lt_trichotomy i calls.length with hi | rfl | hi
  · rw [List.getElem?_append_left hi]
    simp [show i ≠ calls.length by omega]
  · simp [eq_comm]
  · have hnone : (calls ++ [s])[i]? = none := by
      rw [List.getElem?_eq_none_iff, List.length_append, List.length_singleton]
      omega
    have hnone' : calls[i]? = none := by
      rw [List.getElem?_eq_none_iff]
      omega
    simp [hnone, hnone', show i ≠ calls.length by omega]

theorem index_lt (h : calls[i]? = some a) : i < calls.length :=
  (List.getElem?_eq_some_iff.mp h).1

theorem tagged_none (h : ∀ (i : ℕ) (a : Sent), calls[i]? = some a → a.conn = conn →
    a.op.tag ≠ tag) :
    tagged q₀ calls conn tag = none := by
  rw [tagged, Option.map_eq_none_iff, List.findIdx?_eq_none_iff]
  intro a ha
  obtain ⟨i, hi⟩ := List.getElem?_of_mem ha
  simpa using h i a hi

theorem tagged_own (hd : DistinctTags calls) (h : calls[i]? = some a) :
    tagged q₀ calls a.conn a.op.tag = some (given q₀ i) := by
  rw [tagged, Option.map_eq_some_iff]
  cases hf : calls.findIdx? fun s => s.conn = a.conn ∧ s.op.tag = a.op.tag with
  | none =>
    rw [List.findIdx?_eq_none_iff] at hf
    simpa using hf a (List.mem_of_getElem? h)
  | some j =>
    obtain ⟨hj, hp, _⟩ := List.findIdx?_eq_some_iff_getElem.mp hf
    obtain ⟨hconn, htag⟩ := of_decide_eq_true hp
    exact ⟨j, rfl, congrArg _ (hd j i _ a (List.getElem?_eq_getElem hj) h hconn htag)⟩

theorem tagged_some (h : tagged q₀ calls conn tag = some x) :
    ∃ i a, calls[i]? = some a ∧ a.conn = conn ∧ a.op.tag = tag ∧ x = given q₀ i := by
  rw [tagged, Option.map_eq_some_iff] at h
  obtain ⟨i, hi, rfl⟩ := h
  obtain ⟨hlt, hp, _⟩ := List.findIdx?_eq_some_iff_getElem.mp hi
  obtain ⟨hconn, htag⟩ := of_decide_eq_true hp
  exact ⟨i, _, List.getElem?_eq_getElem hlt, hconn, htag, rfl⟩

theorem tagged_snoc (h : s.conn = conn → s.op.tag ≠ tag) :
    tagged q₀ (calls ++ [s]) conn tag = tagged q₀ calls conn tag := by
  have hlast : [s].findIdx? (fun s => decide (s.conn = conn ∧ s.op.tag = tag)) = none := by
    rw [List.findIdx?_eq_none_iff]
    simpa using h
  rw [tagged, tagged, List.findIdx?_append, hlast]
  simp

theorem distinct_of_nodup (h : (calls.map fun s => (s.conn, s.op.tag)).Nodup) :
    DistinctTags calls := by
  intro i j a b ha hb hc ht
  have hi := index_lt ha
  have hpair : (calls.map fun s => (s.conn, s.op.tag))[i]? =
      (calls.map fun s => (s.conn, s.op.tag))[j]? := by
    rw [List.getElem?_map, List.getElem?_map, ha, hb]
    simp [hc, ht]
  exact (List.getElem?_inj (by simpa using hi) h).mp hpair

theorem distinct_front (h : DistinctTags (calls ++ [s])) : DistinctTags calls :=
  fun i j a b ha hb => h i j a b ((getElem?_snoc calls s i).mpr (Or.inl ha))
    ((getElem?_snoc calls s j).mpr (Or.inl hb))

end Tags

def confirmedOf : Callback → Option IdeAddConfirmed
  | .ideAddConfirm c => some c
  | _ => none

def Waiting (q : SharQueue) (op : IdeAdd) : Prop :=
  (∃ tag, Waits q.ideTagBacklog tag op) ∨ ∃ k, Waits q.ideBacklog k op

/-- `hand` is the add that is being tried. -/
def HeldIn (q : SharQueue) (hand : Option IdeAdd) (op : IdeAdd) : Prop :=
  hand = some op ∨ op ∈ q.ideWorklist ∨ Waiting q op

/-- The tag of the `i`-th add still stands for that add. -/
def Owns (q₀ q : SharQueue) (i : ℕ) (op : IdeAdd) : Prop :=
  q.tagIdentities.lookup op.tag = some (given q₀ i)

structure Typing (q₀ : SharQueue) (calls : List Sent) (hand : Option IdeAdd) (q : SharQueue) :
    Prop where
  routes : SameRoutes q₀.tree q.tree
  files : AllFiles Firm q.tree
  counter : q.counter = q₀.counter + calls.length
  peer : q.peer = q₀.peer
  tight : Tight q.ideBacklog
  tagTight : Tight q.ideTagBacklog
  tags : ∀ tag x, q.tagIdentities.lookup tag = some x →
    ∃ i a, calls[i]? = some a ∧ a.op.tag = tag ∧ x = given q₀ i
  registered : ∀ a ∈ calls, ∃ x, q.tagIdentities.lookup a.op.tag = some x
  held : ∀ op, HeldIn q hand op → ∃ i a, calls[i]? = some a ∧ a.op = op ∧ Owns q₀ q i op ∧
    q.ideParent op = meant q₀ calls a
  tagWaits : ∀ tag op, Waits q.ideTagBacklog tag op →
    tagOf op = some tag ∧ q.tagIdentities.lookup tag = none
  waits : ∀ k op, Waits q.ideBacklog k op → q.ideParent op = some k ∧
    ∀ ref, q₀.tree.findFile op.filePath = some ref → ¬ Known q ref k
  accounted : ∀ (i : ℕ) (a : Sent), calls[i]? = some a →
    (∃ ref, q₀.tree.findFile a.op.filePath = some ref ∧ Known q ref (given q₀ i)) ∨
      HeldIn q hand a.op ∧ Owns q₀ q i a.op
  kept : ∀ ref x s, Holds q₀ ref x s → Holds q ref x s
  sourced : ∀ ref x s, Holds q ref x s → Holds q₀ ref x s ∨ Typed q₀ calls ref x s
  live : ∀ ref x, ¬ Gone q ref x
  confirmed : q.fired.filterMap confirmedOf =
    calls.mapIdx fun i s => ⟨s.op.tag, (given q₀ i).1, (given q₀ i).2⟩

section Steps

variable {q₀ q q' : SharQueue} {calls : List Sent} {op : IdeAdd} {x p : Identity}
  {o : Outcome} {t : SharDirectory} {hand : Option IdeAdd}

theorem ide_added (hP : AllFiles Firm q.tree)
    (ha : TreeAdded q.tree op.filePath (ideCrdt op x p) o t) :
    (∃ pos ref, o = .ok (some pos) ∧ q.tree.findFile op.filePath = some ref ∧ Known q ref p ∧
      ¬ Known q ref x ∧ ∀ q' : SharQueue, q'.tree = t →
        (∀ r y s, Holds q' r y s ↔
          Holds q r y s ∨ r = ref ∧ y = x ∧ s = .new op.val p.1 p.2) ∧
        ∀ r y, Gone q' r y → Gone q r y) ∨
    (∃ ref, o = .ok none ∧ q.tree.findFile op.filePath = some ref ∧ Known q ref x ∧
      ∀ q' : SharQueue, q'.tree = t → SameKnowledge q q') ∨
    (∃ e, o = .error e ∧ (∀ ref, q.tree.findFile op.filePath = some ref → ¬ Known q ref p) ∧
      ∀ q' : SharQueue, q'.tree = t → SameKnowledge q q') := by
  cases hr : q.tree.findFile op.filePath with
  | none =>
    cases ha with
    | lost _ =>
      exact Or.inr (Or.inr ⟨_, rfl, fun ref href => absurd href (by simp),
        fun q' ht => DeliveryRuns.sameKnowledge_tree ht⟩)
    | routed href _ _ =>
      rw [hr] at href
      exact absurd href (by simp)
  | some ref =>
    have hlive : (ideCrdt op x p).relation.deleted = false := rfl
    rcases added_knowledge firm_rule hP hr (fun _ _ => hlive) ha with ⟨pos, ho, hp, hx, hk⟩ |
      ⟨ho, hx, hk⟩ | ⟨e, ho, hp, hk⟩
    · refine Or.inl ⟨pos, ref, ho, rfl, hp, hx, fun q' ht => ⟨(hk q' ht).1, fun r y hy => ?_⟩⟩
      refine (((hk q' ht).2 r y).mp hy).resolve_right fun hdel => ?_
      exact absurd (hlive.symm.trans hdel.2.2) (by simp)
    · exact Or.inr (Or.inl ⟨ref, ho, rfl, hx, hk⟩)
    · refine Or.inr (Or.inr ⟨e, ho, fun r hr' => ?_, hk⟩)
      rw [Option.some.injEq] at hr'
      exact hr' ▸ hp

theorem held_same (hP : AllFiles Firm q.tree) (hh : Held q op q') : SameKnowledge q q' := by
  cases hh with
  | untagged _ _ => exact DeliveryRuns.sameKnowledge_tree rfl
  | @repeated x p t _ _ ha =>
    rcases ide_added hP ha with ⟨_, _, ho, _⟩ | ⟨_, _, _, _, hsame⟩ | ⟨_, ho, _⟩
    · exact absurd ho (by simp)
    · exact hsame (withTree q t) rfl
    · exact absurd ho (by simp)
  | @early x p e t _ _ ha =>
    rcases ide_added hP ha with ⟨_, _, ho, _⟩ | ⟨_, ho, _⟩ | ⟨_, _, _, hsame⟩
    · exact absurd ho (by simp)
    · exact absurd ho (by simp)
    · exact hsame (waitingIde (withTree q t) p op) rfl

theorem added_firm (hP : AllFiles Firm q.tree)
    (ha : TreeAdded q.tree op.filePath (ideCrdt op x p) o t) : AllFiles Firm t :=
  ha.allFiles hP fun _ _ _ _ _ hf hg => firm_added hf rfl hg

theorem typing_moved {hand' : Option IdeAdd} (h : Typing q₀ calls hand q)
    (hroutes : SameRoutes q.tree q'.tree) (hfiles : AllFiles Firm q'.tree)
    (hk : SameKnowledge q q') (hcounter : q'.counter = q.counter) (hpeer : q'.peer = q.peer)
    (htags : q'.tagIdentities = q.tagIdentities) (hfired : q'.fired = q.fired)
    (htight : Tight q'.ideBacklog) (htagTight : Tight q'.ideTagBacklog)
    (hback : ∀ op, HeldIn q' hand' op → HeldIn q hand op)
    (hforth : ∀ (i : ℕ) (a : Sent), calls[i]? = some a → HeldIn q hand a.op → Owns q₀ q i a.op →
      (∃ ref, q₀.tree.findFile a.op.filePath = some ref ∧ Known q ref (given q₀ i)) ∨
        HeldIn q' hand' a.op)
    (htagWaits : ∀ tag op, Waits q'.ideTagBacklog tag op →
      tagOf op = some tag ∧ q.tagIdentities.lookup tag = none)
    (hwaits : ∀ k op, Waits q'.ideBacklog k op → q.ideParent op = some k ∧
      ∀ ref, q₀.tree.findFile op.filePath = some ref → ¬ Known q ref k) :
    Typing q₀ calls hand' q' := by
  have hknown := DeliveryRuns.known_congr hk.holds
  refine ⟨h.routes.trans hroutes, hfiles, hcounter.trans h.counter, hpeer.trans h.peer, htight,
    htagTight, ?_, ?_, fun op ho => ?_, ?_, fun k op hw => ?_, fun i a ha => ?_,
    fun r y s hy => (hk.holds r y s).mpr (h.kept r y s hy),
    fun r y s hy => h.sourced r y s ((hk.holds r y s).mp hy),
    fun r y hy => h.live r y ((hk.gone r y).mp hy), ?_⟩
  · rw [htags]
    exact h.tags
  · rw [htags]
    exact h.registered
  · obtain ⟨i, a, ha, hop, hown, hmeant⟩ := h.held op (hback op ho)
    exact ⟨i, a, ha, hop, by rw [Owns, htags]; exact hown,
      (ideParent_congr htags op).trans hmeant⟩
  · rw [htags]
    exact htagWaits
  · obtain ⟨hpar, hn⟩ := hwaits k op hw
    exact ⟨(ideParent_congr htags op).trans hpar, fun ref hr => by rw [hknown]; exact hn ref hr⟩
  · have hlanded : (∃ ref, q₀.tree.findFile a.op.filePath = some ref ∧ Known q ref (given q₀ i)) →
        ∃ ref, q₀.tree.findFile a.op.filePath = some ref ∧ Known q' ref (given q₀ i) := by
      rintro ⟨ref, hr, hkn⟩
      exact ⟨ref, hr, (hknown _ _).mpr hkn⟩
    rcases h.accounted i a ha with hl | ⟨hheld, hown⟩
    · exact Or.inl (hlanded hl)
    · rcases hforth i a ha hheld hown with hl | hheld'
      · exact Or.inl (hlanded hl)
      · exact Or.inr ⟨hheld', by rw [Owns, htags]; exact hown⟩
  · rw [hfired]
    exact h.confirmed

theorem held_popped {q₁ : SharQueue} (hpop : q.popIde = some (op, q₁)) (o : IdeAdd) :
    HeldIn q₁ (some op) o ↔ HeldIn q none o := by
  obtain ⟨rest, hl, rfl⟩ := popIde_eq hpop
  have hrest : o ∈ q.ideWorklist ↔ o = op ∨ o ∈ rest := by rw [hl, List.mem_cons]
  constructor
  · rintro (he | hin | hw)
    · exact Or.inr (Or.inl (hrest.mpr (Or.inl (Option.some.inj he).symm)))
    · exact Or.inr (Or.inl (hrest.mpr (Or.inr hin)))
    · exact Or.inr (Or.inr hw)
  · rintro (he | hin | hw)
    · exact absurd he (by simp)
    · rcases hrest.mp hin with rfl | hin
      · exact Or.inl rfl
      · exact Or.inr (Or.inl hin)
    · exact Or.inr (Or.inr hw)

theorem typing_popped {q₁ : SharQueue} (h : Typing q₀ calls none q)
    (hpop : q.popIde = some (op, q₁)) : Typing q₀ calls (some op) q₁ := by
  have hheld := held_popped hpop
  obtain ⟨rest, hl, rfl⟩ := popIde_eq hpop
  exact typing_moved h (sameRoutes_refl _) h.files (DeliveryRuns.sameKnowledge_tree rfl) rfl rfl rfl
    rfl h.tight h.tagTight (fun o ho => (hheld o).mp ho)
    (fun _ _ _ ho _ => Or.inr ((hheld _).mpr ho)) h.tagWaits h.waits

theorem lands_facts {pos : Position} (h : Typing q₀ calls (some op) q)
    (hl : Lands q op x p pos t) : ∃ i a ref, calls[i]? = some a ∧ a.op = op ∧ x = given q₀ i ∧
      q₀.tree.findFile op.filePath = some ref ∧ meant q₀ calls a = some p ∧ Known q ref p ∧
      ¬ Known q ref x ∧ ∀ q' : SharQueue, q'.tree = t →
        (∀ r y s, Holds q' r y s ↔
          Holds q r y s ∨ r = ref ∧ y = x ∧ s = .new op.val p.1 p.2) ∧
        ∀ r y, Gone q' r y → Gone q r y := by
  obtain ⟨i, a, ha, hop, hown, hmeant⟩ := h.held op (Or.inl rfl)
  rcases ide_added h.files hl.added with ⟨_, ref, _, hr, hp, hx, hk⟩ | ⟨_, ho, _⟩ | ⟨_, ho, _⟩
  · rw [h.routes.findFile] at hr
    exact ⟨i, a, ref, ha, hop, Option.some.inj (hl.tagged.symm.trans hown), hr,
      hmeant.symm.trans hl.resolved, hp, hx, hk⟩
  · exact absurd ho (by simp)
  · exact absurd ho (by simp)

theorem typing_landed {pos : Position} (h : Typing q₀ calls (some op) q)
    (hl : Lands q op x p pos t) :
    Typing q₀ calls none ((withTree q t).queueIdeBacklog x) := by
  obtain ⟨i, a, ref, ha, rfl, rfl, hr, hmeant, hp, hx, hk⟩ := lands_facts h hl
  generalize hq : (withTree q t).queueIdeBacklog (given q₀ i) = q'
  have htree : q'.tree = t := by
    rw [← hq, queueIde_tree]
    rfl
  have htags : q'.tagIdentities = q.tagIdentities := by
    rw [← hq]
    exact queueIde_tags _ _
  have htag : q'.ideTagBacklog = q.ideTagBacklog := by
    rw [← hq]
    exact queueIde_tagBacklog _ _
  have hfired : q'.fired = q.fired := by
    rw [← hq, queueIde_fired, withTree_fired]
  have hback : ∀ k o, Waits q'.ideBacklog k o ↔ Waits q.ideBacklog k o ∧ k ≠ given q₀ i := by
    intro k o
    rw [← hq]
    exact queueIde_backlog (withTree q t) (given q₀ i) k o
  have hwork : ∀ o, o ∈ q'.ideWorklist ↔
      o ∈ q.ideWorklist ∨ Waits q.ideBacklog (given q₀ i) o := by
    intro o
    rw [← hq]
    exact queueIde_worklist (withTree q t) (given q₀ i) o
  obtain ⟨hholds, hgone⟩ := hk q' htree
  have hknown : ∀ r y, Known q' r y ↔ Known q r y ∨ r = ref ∧ y = given q₀ i := by
    intro r y
    simp only [known_iff_holds, hholds, exists_or, exists_and_left, exists_eq, and_true]
  refine ⟨h.routes.trans (htree ▸ hl.added.routes), htree ▸ added_firm h.files hl.added, ?_, ?_, ?_,
    ?_, ?_, ?_, fun o ho => ?_, ?_, fun k o hw => ?_, fun j b hb => ?_,
    fun r y s hy => (hholds r y s).mpr (Or.inl (h.kept r y s hy)), fun r y s hy => ?_,
    fun r y hy => h.live r y (hgone r y hy), ?_⟩
  · rw [← hq]
    exact (queueIde_counter _ _).trans h.counter
  · rw [← hq]
    exact (queueIde_peer _ _).trans h.peer
  · rw [← hq]
    exact queueIde_tight _ _ h.tight
  · rw [htag]
    exact h.tagTight
  · rw [htags]
    exact h.tags
  · rw [htags]
    exact h.registered
  · have hheld : HeldIn q (some a.op) o := by
      rcases ho with ho | ho | ⟨tag, hw⟩ | ⟨k, hw⟩
      · exact absurd ho (by simp)
      · rcases (hwork o).mp ho with ho | hw
        · exact Or.inr (Or.inl ho)
        · exact Or.inr (Or.inr (Or.inr ⟨_, hw⟩))
      · exact Or.inr (Or.inr (Or.inl ⟨tag, htag ▸ hw⟩))
      · exact Or.inr (Or.inr (Or.inr ⟨k, ((hback k o).mp hw).1⟩))
    obtain ⟨j, b, hb, hbo, hown', hm⟩ := h.held o hheld
    exact ⟨j, b, hb, hbo, by rw [Owns, htags]; exact hown', (ideParent_congr htags o).trans hm⟩
  · rw [htag, htags]
    exact h.tagWaits
  · obtain ⟨hw, hne⟩ := (hback k o).mp hw
    obtain ⟨hpar, hn⟩ := h.waits k o hw
    refine ⟨(ideParent_congr htags o).trans hpar, fun r hr' hkn => ?_⟩
    rcases (hknown r k).mp hkn with hkn | ⟨_, he⟩
    · exact hn r hr' hkn
    · exact hne he
  · rcases h.accounted j b hb with ⟨r, hr', hkn⟩ | ⟨hheld, hown'⟩
    · exact Or.inl ⟨r, hr', (hknown r _).mpr (Or.inl hkn)⟩
    · have hown'' : Owns q₀ q' j b.op := by
        rw [Owns, htags]
        exact hown'
      rcases hheld with he | hin | ⟨tag, hw⟩ | ⟨k, hw⟩
      · rw [Option.some.injEq] at he
        have hji : given q₀ i = given q₀ j := Option.some.inj (hl.tagged.symm.trans (he ▸ hown'))
        exact Or.inl ⟨ref, he ▸ hr, (hknown _ _).mpr (Or.inr ⟨rfl, hji.symm⟩)⟩
      · exact Or.inr ⟨Or.inr (Or.inl ((hwork _).mpr (Or.inl hin))), hown''⟩
      · exact Or.inr ⟨Or.inr (Or.inr (Or.inl ⟨tag, by rw [htag]; exact hw⟩)), hown''⟩
      · by_cases hki : k = given q₀ i
        · exact Or.inr ⟨Or.inr (Or.inl ((hwork _).mpr (Or.inr (hki ▸ hw)))), hown''⟩
        · exact Or.inr ⟨Or.inr (Or.inr (Or.inr ⟨k, (hback k _).mpr ⟨hw, hki⟩⟩)), hown''⟩
  · rcases (hholds r y s).mp hy with hy | ⟨rfl, rfl, rfl⟩
    · exact h.sourced r y s hy
    · exact Or.inr ⟨i, a, p, ha, rfl, hr, hmeant, rfl⟩
  · rw [hfired]
    exact h.confirmed

theorem typing_shown (h : Typing q₀ calls hand q) (a b : NetworkAdd) :
    Typing q₀ calls hand (q.fire (.ideAdd a b)) :=
  { h with
    confirmed := by
      rw [fire_fired, List.filterMap_append]
      exact (List.append_nil _).trans h.confirmed }

theorem typing_retried (h : Typing q₀ calls (some op) q) (hr : RetriedIde q op q') :
    Typing q₀ calls none q' := by
  cases hr with
  | landed hl => exact typing_shown (typing_landed h hl) _ _
  | held hh =>
    cases hh with
    | @untagged tag hp ht =>
      have hheld : ∀ o, HeldIn (waitingTag q tag op) none o ↔ HeldIn q (some op) o := by
        intro o
        simp only [HeldIn, Waiting, waitingTag, waits_push, reduceCtorEq, false_or,
          Option.some.injEq, exists_or, exists_and_right, exists_eq, true_and, eq_comm (a := op)]
        tauto
      have htag := tagOf_of_waiting hp ht
      refine typing_moved h (sameRoutes_refl _) h.files (DeliveryRuns.sameKnowledge_tree rfl) rfl rfl
        rfl rfl h.tight (tight_push h.tagTight) (fun o ho => (hheld o).mp ho)
        (fun _ _ _ ho _ => Or.inr ((hheld _).mpr ho)) (fun tag' o hw => ?_) h.waits
      rcases waits_push.mp hw with hw | ⟨rfl, rfl⟩
      · exact h.tagWaits tag' o hw
      · exact ⟨htag, by rw [← (meant_of_tagOf q₀ q calls ⟨0, o⟩ htag).2, hp]⟩
    | @repeated x parent t hp hx ht =>
      rcases ide_added h.files ht with ⟨_, _, ho, _⟩ | ⟨ref, _, href, hk, hsame⟩ | ⟨_, ho, _⟩
      · exact absurd ho (by simp)
      · rw [h.routes.findFile] at href
        refine typing_moved h ht.routes (added_firm h.files ht) (hsame (withTree q t) rfl) rfl rfl rfl
          rfl h.tight h.tagTight (fun o ho => ?_) (fun i a ha ho hown => ?_) h.tagWaits h.waits
        · exact Or.inr (ho.resolve_left (by simp))
        · rcases ho with ho | ho
          · rw [Option.some.injEq] at ho
            subst ho
            obtain rfl : given q₀ i = x := Option.some.inj (hown.symm.trans hx)
            exact Or.inl ⟨ref, href, hk⟩
          · exact Or.inr (Or.inr ho)
      · exact absurd ho (by simp)
    | @early x parent e t hp hx ht =>
      rcases ide_added h.files ht with ⟨_, _, ho, _⟩ | ⟨_, ho, _⟩ | ⟨_, _, hn, hsame⟩
      · exact absurd ho (by simp)
      · exact absurd ho (by simp)
      · have hheld : ∀ o, HeldIn (waitingIde (withTree q t) parent op) none o ↔
            HeldIn q (some op) o := by
          intro o
          simp only [HeldIn, Waiting, waitingIde, withTree, waits_push, reduceCtorEq, false_or,
            Option.some.injEq, exists_or, exists_and_right, exists_eq, true_and,
            eq_comm (a := op)]
          tauto
        refine typing_moved h ht.routes (added_firm h.files ht)
          (hsame (waitingIde (withTree q t) parent op) rfl) rfl rfl rfl rfl (tight_push h.tight)
          h.tagTight (fun o ho => (hheld o).mp ho) (fun _ _ _ ho _ => Or.inr ((hheld _).mpr ho))
          h.tagWaits (fun k o hw => ?_)
        rcases waits_push.mp hw with hw | ⟨rfl, rfl⟩
        · exact h.waits k o hw
        · exact ⟨hp, fun ref href => hn ref (by rw [h.routes.findFile]; exact href)⟩

end Steps

/-- What the add `s` must find: no other connection depends on its tag, and the tag of its
parent is not that of another connection. -/
structure Clear (q₀ : SharQueue) (calls : List Sent) (q : SharQueue) (s : Sent) : Prop where
  unused : ∀ op, Waiting q op → op.tag ≠ s.op.tag
  awaited : ∀ (i : ℕ) (a : Sent), calls[i]? = some a → Waiting q a.op → Owns q₀ q i a.op →
    tagOf a.op = some s.op.tag → a.conn = s.conn
  parent : ∀ (i : ℕ) (a : Sent), calls[i]? = some a → Owns q₀ q i a.op →
    tagOf s.op = some a.op.tag → a.op.tag ≠ s.op.tag → a.conn = s.conn

section Received

variable {q₀ q : SharQueue} {calls : List Sent} {s : Sent} {n : ℕ}

theorem meant_append {a : Sent} {p : Identity} (more : List Sent) (h : meant q₀ calls a = some p) :
    meant q₀ (calls ++ more) a = some p := by
  rcases naming_cases a.op with ⟨id, peer, hid, hpeer, _⟩ | ⟨hby, _⟩
  · simpa [meant, hid, hpeer] using h
  · rw [(by_tag q₀ q₀ calls hby).1, Option.bind_eq_some_iff] at h
    obtain ⟨tag, ht, h⟩ := h
    rw [(by_tag q₀ q₀ (calls ++ more) hby).1, ht, Option.bind_some]
    rw [tagged, Option.map_eq_some_iff] at h ⊢
    obtain ⟨i, hi, he⟩ := h
    exact ⟨i, by rw [List.findIdx?_append, hi]; rfl, he⟩

theorem typed_mono {ref : FileRef} {x : Identity} {rel : CrdtRelation}
    (h : Typed q₀ calls ref x rel) : Typed q₀ (calls ++ [s]) ref x rel := by
  obtain ⟨i, a, p, ha, hx, hr, hm, hrel⟩ := h
  exact ⟨i, a, p, (getElem?_snoc calls s i).mpr (Or.inl ha), hx, hr, meant_append [s] hm, hrel⟩

theorem waiting_of_held (hw : q.ideWorklist = []) {op : IdeAdd} (ho : HeldIn q none op) :
    Waiting q op := by
  rcases ho with ho | ho | ho
  · exact absurd ho (by simp)
  · rw [hw] at ho
    exact absurd ho (by simp)
  · exact ho

theorem tagged_last (hd : DistinctTags (calls ++ [s])) :
    tagged q₀ (calls ++ [s]) s.conn s.op.tag = some (given q₀ calls.length) :=
  tagged_own hd ((getElem?_snoc calls s _).mpr (Or.inr ⟨rfl, rfl⟩))

variable (h : Typing q₀ calls none q) (hd : DistinctTags (calls ++ [s]))
  (hclear : Clear q₀ calls q s) (hn : tick q.counter = some n)

include h hn

theorem given_next : (n, q.peer) = given q₀ calls.length := by
  obtain ⟨_, rfl⟩ := tick_eq_some.mp hn
  rw [given, h.counter, h.peer]

include hd hclear

theorem waiting_parent {i : ℕ} {a : Sent} (ha : calls[i]? = some a) (hwait : Waiting q a.op)
    (hown : Owns q₀ q i a.op) (hm : q.ideParent a.op = meant q₀ calls a) :
    (enlisted q s.op n).ideParent a.op = meant q₀ (calls ++ [s]) a := by
  cases htag : tagOf a.op with
  | none =>
    obtain ⟨hp, hm', hpm⟩ := parent_untagged q₀ q (enlisted q s.op n) calls
      (calls ++ [s]) htag
    rw [hp, hm', hpm]
  | some tag =>
    obtain ⟨hma, hpa⟩ := meant_of_tagOf q₀ q calls a htag
    obtain ⟨hma', hpa'⟩ := meant_of_tagOf q₀ (enlisted q s.op n) (calls ++ [s]) a htag
    rw [hpa', hma', enlisted_tags]
    by_cases ht : tag = s.op.tag
    · subst ht
      rw [hclear.awaited i a ha hwait hown htag, tagged_last hd, Finmap.lookup_insert,
        given_next h hn]
    · rw [Finmap.lookup_insert_of_ne _ ht, tagged_snoc fun _ he => ht he.symm, ← hma, ← hpa, hm]

theorem received_parent : (enlisted q s.op n).ideParent s.op = meant q₀ (calls ++ [s]) s := by
  cases htag : tagOf s.op with
  | none => exact (parent_untagged q₀ (enlisted q s.op n) q (calls ++ [s]) calls htag).2.2
  | some tag =>
    obtain ⟨hm, hp⟩ := meant_of_tagOf q₀ (enlisted q s.op n) (calls ++ [s]) s htag
    rw [hp, hm, enlisted_tags]
    by_cases ht : tag = s.op.tag
    · subst ht
      rw [tagged_last hd, Finmap.lookup_insert, given_next h hn]
    · rw [Finmap.lookup_insert_of_ne _ ht, tagged_snoc fun _ he => ht he.symm]
      cases hl : q.tagIdentities.lookup tag with
      | none =>
        refine (tagged_none fun i a ha _ he => ?_).symm
        obtain ⟨x, hx⟩ := h.registered a (List.mem_of_getElem? ha)
        rw [he, hl] at hx
        exact absurd hx (by simp)
      | some x =>
        obtain ⟨i, a, ha, rfl, rfl⟩ := h.tags tag x hl
        rw [← hclear.parent i a ha hl htag ht]
        exact (tagged_own (distinct_front hd) ha).symm

theorem typing_received (hw : q.ideWorklist = []) :
    Typing q₀ (calls ++ [s]) (some s.op) (enlisted q s.op n) := by
  have hlast := (getElem?_snoc calls s calls.length).mpr (Or.inr ⟨rfl, rfl⟩)
  have hold : ∀ {i : ℕ} {a : Sent}, calls[i]? = some a → (calls ++ [s])[i]? = some a :=
    fun ha => (getElem?_snoc calls s _).mpr (Or.inl ha)
  have hknown : ∀ r y, Known (enlisted q s.op n) r y ↔ Known q r y := by
    simp [Known]
  have hsame : SameKnowledge q (enlisted q s.op n) :=
    DeliveryRuns.sameKnowledge_tree (enlisted_tree _ _ _)
  have howns : ∀ {i : ℕ} {op : IdeAdd}, Waiting q op → Owns q₀ q i op →
      Owns q₀ (enlisted q s.op n) i op := by
    intro i op hwait hown
    rw [Owns, enlisted_tags, Finmap.lookup_insert_of_ne _ (hclear.unused op hwait)]
    exact hown
  have hown : Owns q₀ (enlisted q s.op n) calls.length s.op := by
    rw [Owns, enlisted_tags, Finmap.lookup_insert, given_next h hn]
  -- What waited for the new tag is on the worklist now.
  have hwaiting : ∀ op, HeldIn (enlisted q s.op n) (some s.op) op ↔ op = s.op ∨ Waiting q op := by
    intro op
    simp only [HeldIn, Waiting, enlisted_worklist, enlisted_tagWaits, enlisted_backlog, hw,
      Option.some.injEq, List.not_mem_nil, false_or, eq_comm (a := s.op)]
    constructor
    · rintro (he | hwt | ⟨tag, hwt, _⟩ | hwt)
      · exact Or.inl he
      · exact Or.inr (Or.inl ⟨_, hwt⟩)
      · exact Or.inr (Or.inl ⟨tag, hwt⟩)
      · exact Or.inr (Or.inr hwt)
    · rintro (he | ⟨tag, hwt⟩ | hwt)
      · exact Or.inl he
      · by_cases ht : tag = s.op.tag
        · exact Or.inr (Or.inl (ht ▸ hwt))
        · exact Or.inr (Or.inr (Or.inl ⟨tag, hwt, ht⟩))
      · exact Or.inr (Or.inr (Or.inr hwt))
  refine ⟨?_, ?_, ?_, ?_, ?_, enlisted_tagTight _ _ _ h.tagTight, ?_, ?_, ?_, ?_, ?_, ?_, ?_, ?_,
    fun r x hx => h.live r x ((hsame.gone r x).mp hx), ?_⟩
  · rw [enlisted_tree]
    exact h.routes
  · rw [enlisted_tree]
    exact h.files
  · rw [enlisted_counter, List.length_append, List.length_singleton, (tick_eq_some.mp hn).2,
      h.counter, Nat.add_assoc]
  · rw [enlisted_peer]
    exact h.peer
  · rw [enlisted_backlog]
    exact h.tight
  · intro tag x hx
    rw [enlisted_tags] at hx
    by_cases ht : tag = s.op.tag
    · subst ht
      rw [Finmap.lookup_insert, Option.some.injEq, given_next h hn] at hx
      exact ⟨_, s, hlast, rfl, hx.symm⟩
    · rw [Finmap.lookup_insert_of_ne _ ht] at hx
      obtain ⟨i, a, ha, hat, hxi⟩ := h.tags tag x hx
      exact ⟨i, a, hold ha, hat, hxi⟩
  · intro a ha
    rw [enlisted_tags]
    by_cases ht : a.op.tag = s.op.tag
    · rw [ht]
      exact ⟨_, Finmap.lookup_insert _⟩
    · rw [Finmap.lookup_insert_of_ne _ ht]
      rcases List.mem_append.mp ha with ha | ha
      · exact h.registered a ha
      · rw [List.mem_singleton.mp ha] at ht
        exact absurd rfl ht
  · intro op ho
    rcases (hwaiting op).mp ho with rfl | hwait
    · exact ⟨_, s, hlast, rfl, hown, received_parent h hd hclear hn⟩
    · obtain ⟨i, a, ha, rfl, hao, hm⟩ := h.held op (Or.inr (Or.inr hwait))
      exact ⟨i, a, hold ha, rfl, howns hwait hao, waiting_parent h hd hclear hn ha hwait hao hm⟩
  · intro tag op hwt
    obtain ⟨hwt, ht⟩ := (enlisted_tagWaits _ _ _ _ _).mp hwt
    rw [enlisted_tags, Finmap.lookup_insert_of_ne _ ht]
    exact h.tagWaits tag op hwt
  · intro k op hwt
    rw [enlisted_backlog] at hwt
    obtain ⟨hp, hnk⟩ := h.waits k op hwt
    have hwait : Waiting q op := Or.inr ⟨k, hwt⟩
    obtain ⟨i, a, ha, rfl, hao, hm⟩ := h.held op (Or.inr (Or.inr hwait))
    refine ⟨?_, fun ref hr => by rw [hknown]; exact hnk ref hr⟩
    rw [waiting_parent h hd hclear hn ha hwait hao hm]
    exact meant_append [s] (hm.symm.trans hp)
  · intro i a ha
    rcases (getElem?_snoc calls s i).mp ha with ha | ⟨rfl, rfl⟩
    · rcases h.accounted i a ha with ⟨ref, hr, hk⟩ | ⟨hheld, hao⟩
      · exact Or.inl ⟨ref, hr, (hknown _ _).mpr hk⟩
      · have hwait := waiting_of_held hw hheld
        exact Or.inr ⟨(hwaiting _).mpr (Or.inr hwait), howns hwait hao⟩
    · exact Or.inr ⟨Or.inl rfl, hown⟩
  · exact fun r x rel hx => (hsame.holds r x rel).mpr (h.kept r x rel hx)
  · exact fun r x rel hx => (h.sourced r x rel ((hsame.holds r x rel).mp hx)).imp id typed_mono
  · rw [enlisted_fired, List.filterMap_append, h.confirmed, List.mapIdx_append]
    have hpair : n = (given q₀ calls.length).1 ∧ q.peer = (given q₀ calls.length).2 := by
      rw [← given_next h hn]
      exact ⟨rfl, rfl⟩
    simp [confirmedOf, hpair.1, hpair.2]

end Received

section Calls

variable {q₀ q q' : SharQueue} {calls : List Sent} {s : Sent}

theorem typing_sound {hand : Option IdeAdd} (h : Typing q₀ calls hand q) : AllFiles Sound q.tree :=
  fun ref f hf => (h.files ref f hf).toSound

/-- The add says what its parent is. -/
def NamesParent (op : IdeAdd) : Prop :=
  (∃ id peer, op.parentId = some id ∧ op.parentPeer = some peer) ∨ ∃ tag, op.parentTag = some tag

theorem names_tag {op : IdeAdd} (h : NamesParent op) (hp : q.ideParent op = none) :
    ∃ tag, op.parentTag = some tag := by
  rcases h with ⟨id, peer, hid, hpeer⟩ | htag
  · simp [SharQueue.ideParent, hid, hpeer] at hp
  · exact htag

theorem held_safe {op : IdeAdd} (h : Typing q₀ calls (some op) q)
    (hnamed : ∀ a ∈ calls, NamesParent a.op) : ¬ IdeCrashes q op := by
  obtain ⟨i, a, ha, rfl, hown, _⟩ := h.held op (Or.inl rfl)
  rintro (⟨hp, ht⟩ | ⟨_, ht⟩)
  · obtain ⟨tag, htag⟩ := names_tag (hnamed a (List.mem_of_getElem? ha)) hp
    rw [ht] at htag
    exact absurd htag (by simp)
  · rw [Owns, ht] at hown
    exact absurd hown (by simp)

theorem typing_call (h : Typing q₀ calls none q) (hw : q.ideWorklist = [])
    (hd : DistinctTags (calls ++ [s])) (hclear : Clear q₀ calls q s)
    (hcall : q.addIdeOperation s.op = some q') :
    Typing q₀ (calls ++ [s]) none q' ∧ q'.ideWorklist = [] := by
  have hfirst : ∀ n, tick q.counter = some n →
      Typing q₀ (calls ++ [s]) (some s.op) (enlisted q s.op n) :=
    fun n hn => typing_received h hd hclear hn hw
  exact addIde_invariant (fun p hp => typing_sound hp) (fun p a b hp => typing_shown hp a b)
    (fun n q' hn hh => typing_retried (hfirst n hn) (.held hh))
    (fun n x parent pos t hn hl => typing_landed (hfirst n hn) hl)
    (fun p item p₁ p₂ hp hpop _ hr => typing_retried (typing_popped hp hpop) hr)
    (typing_sound h) hcall

theorem none_waiting (hb : q.ideBacklog = ∅) (htb : q.ideTagBacklog = ∅) (op : IdeAdd) :
    ¬ Waiting q op := by
  rintro (⟨tag, l, hl, _⟩ | ⟨k, l, hl, _⟩)
  · rw [htb, Finmap.lookup_empty] at hl
    exact absurd hl (by simp)
  · rw [hb, Finmap.lookup_empty] at hl
    exact absurd hl (by simp)

theorem loaded_typing {dirPath : PathBuf} {read : Except String (List FsEntry)} {peer : ℕ}
    (hl : SharQueue.new dirPath read peer = some (.ok q₀)) :
    Typing q₀ [] none q₀ ∧ q₀.ideWorklist = [] := by
  have hfiles := DeliveryRuns.loaded_files hl
  obtain ⟨_, _, hq⟩ := PathRouting.new_tree hl
  have hempty : q₀.ideBacklog = ∅ ∧ q₀.ideTagBacklog = ∅ ∧ q₀.ideWorklist = [] ∧
      q₀.tagIdentities = ∅ ∧ q₀.fired = [] := by
    rw [hq]
    exact ⟨rfl, rfl, rfl, rfl, rfl⟩
  obtain ⟨hb, htb, hw, ht, hf⟩ := hempty
  have hnone := none_waiting hb htb
  refine ⟨⟨sameRoutes_refl _, fun ref f hf => genesis_firm (hfiles ref f hf), rfl, rfl, ?_, ?_, ?_,
    by simp, fun op ho => ?_, fun tag op hwt => ?_, fun k op hwt => ?_, by simp,
    fun _ _ _ h => h, fun _ _ _ h => Or.inl h, ?_, ?_⟩, hw⟩
  · rw [hb]
    exact tight_empty
  · rw [htb]
    exact tight_empty
  · simp [ht]
  · exact absurd (waiting_of_held hw ho) (hnone op)
  · exact absurd (Or.inl ⟨tag, hwt⟩) (hnone op)
  · exact absurd (Or.inr ⟨k, hwt⟩) (hnone op)
  · rintro ref x ⟨f, hf, ht⟩
    exact (hfiles ref f hf).tombless x ht
  · simp [hf]

end Calls

/-- The adds in the order in which `add_ide_operation` gets them. -/
def receive (q : SharQueue) (s : Sent) : Option SharQueue := q.addIdeOperation s.op

/-- Every add of the run finds a clear queue. -/
def ClearRun (q₀ : SharQueue) (calls : List Sent) : Prop :=
  ∀ pre s post q, calls = pre ++ s :: post → pre.foldlM receive q₀ = some q → Clear q₀ pre q s

/-- The parents of `x` end in a character that was loaded. -/
inductive Arrived (q₀ : SharQueue) (calls : List Sent) (ref : FileRef) : Identity → Prop where
  | loaded {x} : Known q₀ ref x → Arrived q₀ calls ref x
  | sent {i a p} : calls[i]? = some a → q₀.tree.findFile a.op.filePath = some ref →
      meant q₀ calls a = some p → Arrived q₀ calls ref p → Arrived q₀ calls ref (given q₀ i)

section Runs

variable {q₀ q : SharQueue} {calls : List Sent} {ref : FileRef} {x : Identity}

theorem run_typing (h : Typing q₀ [] none q₀) (hw : q₀.ideWorklist = []) (hd : DistinctTags calls)
    (hclear : ClearRun q₀ calls) (hrun : calls.foldlM receive q₀ = some q) :
    Typing q₀ calls none q ∧ q.ideWorklist = [] := by
  induction calls using List.reverseRecOn generalizing q with
  | nil =>
    cases hrun
    exact ⟨h, hw⟩
  | append_singleton calls s ih =>
    rw [List.foldlM_append, Option.bind_eq_bind, Option.bind_eq_some_iff] at hrun
    obtain ⟨q₁, hq₁, hrun⟩ := hrun
    have hcall : q₁.addIdeOperation s.op = some q := by simpa [receive] using hrun
    have hpre : ClearRun q₀ calls := fun pre a post p he =>
      hclear pre a (post ++ [s]) p (by simp [he])
    obtain ⟨h₁, hw₁⟩ := ih (distinct_front hd) hpre hq₁
    exact typing_call h₁ hw₁ hd (hclear calls s [] q₁ rfl hq₁) hcall

/-- Nothing that could land is held between two calls. -/
theorem arrived_known (h : Typing q₀ calls none q) (hw : q.ideWorklist = [])
    (hx : Arrived q₀ calls ref x) : Known q ref x := by
  induction hx with
  | loaded hk =>
    obtain ⟨s, hs⟩ := known_iff_holds.mp hk
    exact known_iff_holds.mpr ⟨s, h.kept _ _ s hs⟩
  | @sent i a p ha hr hm _ ih =>
    rcases h.accounted i a ha with ⟨r, hr', hk⟩ | ⟨hheld, hown⟩
    · rw [hr, Option.some.injEq] at hr'
      exact hr' ▸ hk
    · obtain ⟨j, b, hb, hop, hown', hpm⟩ := h.held a.op hheld
      obtain rfl := given_inj (Option.some.inj (hown.symm.trans hown'))
      rw [ha, Option.some.injEq] at hb
      subst hb
      rw [hm] at hpm
      rcases waiting_of_held hw hheld with ⟨tag, hwt⟩ | ⟨k, hwt⟩
      · obtain ⟨htag, hnone⟩ := h.tagWaits tag _ hwt
        rw [(meant_of_tagOf q₀ q calls a htag).2, hnone] at hpm
        exact absurd hpm (by simp)
      · obtain ⟨hk, hn⟩ := h.waits k _ hwt
        rw [hk, Option.some.injEq] at hpm
        exact absurd ih (hpm ▸ hn ref hr)

end Runs

end Sessions
