import Mathlib.Data.Fintype.EquivFin
import Shario.Sessions

/-! The adds of one connection to one file, in any order that `add_ide_operation` may get
them in: each is confirmed at once and lands once, after its parent. -/
namespace LandsOnce

open CrdtTypes FileTree FilePlacement FileSafety DirectoryTree ShareQueue WorklistDrain TreeCalls
  QueueSteps NetworkDelivery IdeSteps ExactlyOnce NewIdentities QueueRuns Sessions

def shownIde : Callback → Option Identity
  | .ideAdd op _ => some op.crdt.identity
  | _ => none

structure Shown (q₀ q : SharQueue) : Prop where
  once : (q.fired.filterMap shownIde).Nodup
  shown : ∀ x, x ∈ q.fired.filterMap shownIde ↔ ∃ ref, Known q ref x ∧ ¬ Known q₀ ref x
  parents_first : ∀ l r ref x s, q.fired.filterMap shownIde = l ++ x :: r → Holds q ref x s →
    Known q₀ ref x ∨ Known q₀ ref s.parent ∨ s.parent ∈ l

section Log

variable {q₀ q q' : SharQueue} {calls : List Sent} {ref : FileRef} {x : Identity} {op : IdeAdd}
  {rel : CrdtRelation} {cb : Callback} {hand : Option IdeAdd}

theorem typed_unique {r : FileRef} {s s' : CrdtRelation} (h : Typed q₀ calls ref x s)
    (h' : Typed q₀ calls r x s') : r = ref ∧ s' = s := by
  obtain ⟨i, a, p, ha, hx, hr, hm, rfl⟩ := h
  obtain ⟨j, b, p', hb, hx', hr', hm', rfl⟩ := h'
  obtain rfl := given_inj (hx.symm.trans hx')
  rw [ha, Option.some.injEq] at hb
  subst hb
  rw [hr, Option.some.injEq] at hr'
  rw [hm, Option.some.injEq] at hm'
  exact ⟨hr'.symm, by rw [hm']⟩

theorem shown_same (h : Shown q₀ q) (hk : SameKnowledge q q')
    (hf : q'.fired.filterMap shownIde = q.fired.filterMap shownIde) : Shown q₀ q' := by
  refine ⟨?_, fun y => ?_, ?_⟩
  · rw [hf]
    exact h.once
  · rw [hf, h.shown]
    simp only [DeliveryRuns.known_congr hk.holds]
  · intro l m r y s hl hy
    exact h.parents_first l m r y s (hf ▸ hl) ((hk.holds r y s).mp hy)

theorem shown_landed (ht : Typing q₀ calls hand q) (h : Shown q₀ q) (hp : Known q ref rel.parent)
    (hx : ¬ Known q ref x) (htyped : Typed q₀ calls ref x rel)
    (hholds : ∀ r y s, Holds q' r y s ↔ Holds q r y s ∨ r = ref ∧ y = x ∧ s = rel)
    (hf : q'.fired = q.fired ++ [cb]) (hcb : shownIde cb = some x) : Shown q₀ q' := by
  have hknown : ∀ r y, Known q' r y ↔ Known q r y ∨ r = ref ∧ y = x := by
    intro r y
    simp only [known_iff_holds, hholds, exists_or, exists_and_left, exists_eq, and_true]
  have hx₀ : ¬ Known q₀ ref x := by
    intro hk
    obtain ⟨s, hs⟩ := known_iff_holds.mp hk
    exact hx (known_iff_holds.mpr ⟨s, ht.kept ref x s hs⟩)
  have hnew : x ∉ q.fired.filterMap shownIde := by
    intro hin
    obtain ⟨r, hk, hn⟩ := (h.shown x).mp hin
    obtain ⟨s, hs⟩ := known_iff_holds.mp hk
    rcases ht.sourced r x s hs with hs₀ | ht'
    · exact hn (known_iff_holds.mpr ⟨s, hs₀⟩)
    · exact hx ((typed_unique htyped ht').1 ▸ hk)
  have hshown : q'.fired.filterMap shownIde = q.fired.filterMap shownIde ++ [x] := by
    rw [hf, List.filterMap_append]
    simp [hcb]
  refine ⟨?_, fun y => ?_, ?_⟩
  · rw [hshown]
    exact List.nodup_append.mpr ⟨h.once, by simp, fun a ha b hb => by
      rw [List.mem_singleton.mp hb]
      exact fun he => hnew (he ▸ ha)⟩
  · rw [hshown, List.mem_append, h.shown, List.mem_singleton]
    constructor
    · rintro (⟨r, hk, hn⟩ | rfl)
      · exact ⟨r, (hknown r y).mpr (Or.inl hk), hn⟩
      · exact ⟨ref, (hknown ref y).mpr (Or.inr ⟨rfl, rfl⟩), hx₀⟩
    · rintro ⟨r, hk, hn⟩
      rcases (hknown r y).mp hk with hk | ⟨_, hyx⟩
      · exact Or.inl ⟨r, hk, hn⟩
      · exact Or.inr hyx
  · intro l m r y s hl hy
    rw [hshown] at hl
    rcases List.eq_nil_or_concat m with rfl | ⟨m, z, rfl⟩
    · obtain ⟨rfl, he⟩ := List.append_inj' hl rfl
      obtain rfl := (List.cons.inj he).1
      rcases (hholds r x s).mp hy with hy | ⟨rfl, _, rfl⟩
      · rcases ht.sourced r x s hy with hy₀ | ht'
        · exact Or.inl (known_iff_holds.mpr ⟨s, hy₀⟩)
        · exact absurd (known_iff_holds.mpr ⟨s, (typed_unique htyped ht').1 ▸ hy⟩) hx
      · apply Or.inr
        by_cases hp₀ : Known q₀ r s.parent
        · exact Or.inl hp₀
        · exact Or.inr ((h.shown _).mpr ⟨r, hp, hp₀⟩)
    · rw [List.concat_eq_append, ← List.cons_append, ← List.append_assoc] at hl
      have hold := List.append_inj_left' hl rfl
      rcases (hholds r y s).mp hy with hy | ⟨_, rfl, _⟩
      · exact h.parents_first l m r y s hold hy
      · rw [hold] at hnew
        exact absurd (by simp) hnew

theorem shown_retried (ht : Typing q₀ calls (some op) q) (h : Shown q₀ q)
    (hr : RetriedIde q op q') : Shown q₀ q' := by
  cases hr with
  | held hh =>
    have hfired : q'.fired = q.fired := by
      cases hh with
      | untagged _ _ => rfl
      | repeated _ _ _ => rfl
      | early _ _ _ => rfl
    apply shown_same h (held_same ht.files hh)
    rw [hfired]
  | @landed x p pos t hl =>
    obtain ⟨i, a, ref, ha, rfl, rfl, href, hm, hp, hx, hk⟩ := lands_facts ht hl
    generalize hcb : ideShown ((withTree q t).queueIdeBacklog (given q₀ i)) a.op (given q₀ i) p
      pos = cb
    have hshown : shownIde cb = some (given q₀ i) := by rw [← hcb]; rfl
    refine shown_landed ht h hp hx ⟨i, a, p, ha, rfl, href, hm, rfl⟩ (hk _ ?_).1 ?_ hshown
    · rw [fire_tree, queueIde_tree]
      rfl
    · rw [fire_fired, queueIde_fired, withTree_fired]

end Log

section Retries

variable {q : SharQueue} {op : IdeAdd}

theorem inner_retry (hs : AllFiles Sound q.tree)
    (hnew : ∀ x, q.tagIdentities.lookup op.tag = some x → q.ideBacklog.lookup x = none) :
    q.addIdeOperationInner op SharQueue.clearIdeBacklog = q.retryIde op := by
  unfold SharQueue.retryIde
  rcases ide_inner_cases hs op with ⟨q', _, he⟩ | ⟨x, parent, pos, t, hl, he⟩ | ⟨_, he⟩
  · rw [he, he]
  · have hnone : (withTree q t).ideBacklog.lookup x = none := hnew x hl.tagged
    rw [he, he]
    simp [SharQueue.clearIdeBacklog, SharQueue.queueIdeBacklog, hnone]
  · rw [he, he]

theorem addIde_eq (hs : AllFiles Sound q.tree) {n : ℕ} (hn : tick q.counter = some n)
    (hnew : q.ideBacklog.lookup (n, q.peer) = none) :
    q.addIdeOperation op = ((enlisted q op n).retryIde op).bind SharQueue.drainIdeWorklist := by
  have hs' : AllFiles Sound (enlisted q op n).tree := by
    rw [enlisted_tree]
    exact hs
  rw [← inner_retry hs']
  · simp only [SharQueue.addIdeOperation, Option.bind_eq_bind, hn, Option.bind_some]
    rfl
  · intro x hx
    rw [enlisted_tags, Finmap.lookup_insert, Option.some.injEq] at hx
    rw [enlisted_backlog, ← hx]
    exact hnew

end Retries

def alone (calls : List IdeAdd) : List Sent := calls.map (Sent.mk 0)

/-- The parent of `op`, by its identity or as what the set has under its tag. -/
def resolved (q₀ : SharQueue) (calls : List IdeAdd) (op : IdeAdd) : Option Identity :=
  meant q₀ (alone calls) ⟨0, op⟩

/-- The parent of the `j`-th add is the `i`-th. -/
def DependsOn (q₀ : SharQueue) (calls : List IdeAdd) (j i : ℕ) : Prop :=
  ∃ op, calls[j]? = some op ∧ resolved q₀ calls op = some (given q₀ i)

/-- `calls` are the adds in the order of their processing. A parent that is named by its
identity is known to the sender, so it is in the file or has been confirmed before. -/
structure Burst (q₀ : SharQueue) (ref : FileRef) (calls : List IdeAdd) : Prop where
  routed : ∀ op ∈ calls, q₀.tree.findFile op.filePath = some ref
  tags : (calls.map IdeAdd.tag).Nodup
  parents : ∀ j op, calls[j]? = some op → ∃ p, resolved q₀ calls op = some p ∧
    (Known q₀ ref p ∨ ∃ i < calls.length, p = given q₀ i ∧ (tagOf op = none → i < j))
  acyclic : ∀ i, ¬ Relation.TransGen (DependsOn q₀ calls) i i

/-- `op` is confirmed as the `i`-th identity, which is new, before anything else happens, and
nothing else is confirmed. -/
def Confirms (q₀ p : SharQueue) (op : IdeAdd) (i : ℕ) (p' : SharQueue) : Prop :=
  (∀ ref, ¬ Known p ref (given q₀ i)) ∧
    ∃ l, p'.fired = p.fired ++ .ideAddConfirm ⟨op.tag, (given q₀ i).1, (given q₀ i).2⟩ :: l ∧
      ∀ c, .ideAddConfirm c ∉ l

structure LandedOnce (q₀ : SharQueue) (ref : FileRef) (calls : List IdeAdd) (q : SharQueue) :
    Prop where
  backlog : q.ideBacklog = ∅
  tagBacklog : q.ideTagBacklog = ∅
  worklist : q.ideWorklist = []
  characters : ∀ r x rel, Holds q r x rel ↔ Holds q₀ r x rel ∨
    r = ref ∧ ∃ i op p, calls[i]? = some op ∧ x = given q₀ i ∧ resolved q₀ calls op = some p ∧
      rel = .new op.val p.1 p.2
  live : ∀ r x, ¬ Gone q r x
  shown : (q.fired.filterMap shownIde).Perm ((List.range calls.length).map (given q₀))
  parents_first : ∀ j i, DependsOn q₀ calls j i → i < calls.length →
    ∃ l r, q.fired.filterMap shownIde = l ++ given q₀ j :: r ∧ given q₀ i ∈ l

section Alone

variable {q₀ : SharQueue} {calls pre post : List IdeAdd} {ref : FileRef} {op : IdeAdd}
  {a : Sent} {i j : ℕ} {x : Identity}

theorem alone_get : (alone calls)[i]? = some a ↔ ∃ op, calls[i]? = some op ∧ a = ⟨0, op⟩ := by
  simp [alone, List.getElem?_map, eq_comm]

theorem alone_snoc (pre : List IdeAdd) (op : IdeAdd) :
    alone (pre ++ [op]) = alone pre ++ [⟨0, op⟩] := by
  simp [alone]

theorem alone_length (pre : List IdeAdd) : (alone pre).length = pre.length := by
  simp [alone]

theorem alone_distinct (h : (calls.map IdeAdd.tag).Nodup) : DistinctTags (alone calls) := by
  apply distinct_of_nodup
  have hpairs : (alone calls).map (fun s => (s.conn, s.op.tag)) =
      (calls.map IdeAdd.tag).map (Prod.mk 0) := by
    simp [alone, Function.comp_def]
  rw [hpairs]
  exact h.map (fun _ _ he => (Prod.mk.inj he).2)

theorem known_le {dirPath : PathBuf} {read : Except String (List FsEntry)} {peer : ℕ}
    (hl : SharQueue.new dirPath read peer = some (.ok q₀)) (h : Known q₀ ref x) :
    x.1 ≤ q₀.counter := by
  obtain ⟨f, hf, hx⟩ := h
  exact ((loaded_below hl).1.files ref f hf).2 x hx

theorem given_unknown {dirPath : PathBuf} {read : Except String (List FsEntry)} {peer : ℕ}
    (hl : SharQueue.new dirPath read peer = some (.ok q₀)) (i : ℕ) :
    ¬ Known q₀ ref (given q₀ i) := by
  intro hk
  have hle := known_le hl hk
  simp only [given] at hle
  omega

theorem resolved_names (h : resolved q₀ calls op = some x) : NamesParent op := by
  rcases naming_cases op with ⟨id, peer, hid, hpeer, _⟩ | ⟨hby, _⟩
  · exact Or.inl ⟨id, peer, hid, hpeer⟩
  · rw [resolved, (by_tag q₀ q₀ (alone calls) (show (Sent.mk 0 op).op.parentId = none ∨
      (Sent.mk 0 op).op.parentPeer = none from hby)).1, Option.bind_eq_some_iff] at h
    obtain ⟨tag, ht, _⟩ := h
    exact Or.inr ⟨tag, ht⟩

end Alone

/-- Between two calls, once `pre` has been processed. -/
structure Landing (q₀ : SharQueue) (pre : List IdeAdd) (p : SharQueue) : Prop where
  typing : Typing q₀ (alone pre) none p
  shown : Shown q₀ p
  idle : p.ideWorklist = []

section Calls

variable {q₀ p : SharQueue} {calls pre post : List IdeAdd} {ref : FileRef} {op : IdeAdd}
  {dirPath : PathBuf} {read : Except String (List FsEntry)} {peer : ℕ}
  (hl : SharQueue.new dirPath read peer = some (.ok q₀)) (h : Burst q₀ ref calls)
  (he : calls = pre ++ op :: post) (hp : Landing q₀ pre p)

include h he

theorem burst_distinct : DistinctTags (alone pre ++ [⟨0, op⟩]) := by
  rw [← alone_snoc]
  refine alone_distinct (h.tags.sublist ?_)
  rw [he]
  exact (List.Sublist.append_left (by simp) pre).map _

include hp

theorem burst_clear : Clear q₀ (alone pre) p ⟨0, op⟩ := by
  have hconn : ∀ (i : ℕ) (a : Sent), (alone pre)[i]? = some a → a.conn = 0 := by
    intro i a ha
    obtain ⟨o, _, rfl⟩ := alone_get.mp ha
    rfl
  refine ⟨fun o ho ht => ?_, fun i a ha _ _ _ => hconn i a ha, fun i a ha _ _ _ => hconn i a ha⟩
  obtain ⟨i, a, ha, rfl, _⟩ := hp.typing.held o (Or.inr (Or.inr ho))
  obtain ⟨o, hi, rfl⟩ := alone_get.mp ha
  have htags := h.tags
  rw [he, List.map_append, List.map_cons, List.nodup_append'] at htags
  exact htags.2.2 (List.mem_map_of_mem (List.mem_of_getElem? hi)) (List.mem_cons.mpr (Or.inl ht))

include hl

theorem burst_fresh : p.ideBacklog.lookup (given q₀ pre.length) = none := by
  by_contra hne
  obtain ⟨l, hlook⟩ := Option.ne_none_iff_exists'.mp hne
  obtain ⟨o, ho⟩ := List.exists_mem_of_ne_nil l (hp.typing.tight _ _ hlook)
  have hwait : Waits p.ideBacklog (given q₀ pre.length) o := ⟨l, hlook, ho⟩
  obtain ⟨hpar, _⟩ := hp.typing.waits _ o hwait
  obtain ⟨i, a, ha, rfl, _, hm⟩ := hp.typing.held o (Or.inr (Or.inr (Or.inr ⟨_, hwait⟩)))
  rw [hpar] at hm
  obtain ⟨o, hi, rfl⟩ := alone_get.mp ha
  have hlt : i < pre.length := (List.getElem?_eq_some_iff.mp hi).1
  cases htag : tagOf o with
  | some tag =>
    rw [(meant_of_tagOf q₀ q₀ (alone pre) ⟨0, o⟩ htag).1] at hm
    obtain ⟨j, b, hb, _, _, hj⟩ := tagged_some hm.symm
    have hjlt := index_lt hb
    rw [alone_length, given_inj hj] at hjlt
    omega
  | none =>
    have hin : calls[i]? = some o := by
      rw [he, List.getElem?_append_left hlt]
      exact hi
    obtain ⟨x, hx, hx'⟩ := h.parents i o hin
    have hxe : x = given q₀ pre.length := by
      have hsame := (parent_untagged q₀ q₀ q₀ (alone pre) (alone calls)
        (show tagOf (Sent.mk 0 o).op = none from htag)).2.1
      rw [resolved, hsame, ← hm, Option.some.injEq] at hx
      exact hx.symm
    rcases hx' with hk | ⟨j, _, hj, hji⟩
    · exact given_unknown hl _ (hxe ▸ hk)
    · have := given_inj (hxe.symm.trans hj)
      have := hji htag
      omega

theorem burst_call (hroom : q₀.counter + calls.length < 2 ^ 32) :
    ∃ p', p.addIdeOperation op = some p' ∧ Landing q₀ (pre ++ [op]) p' ∧
      Confirms q₀ p op pre.length p' := by
  have hlen : pre.length < calls.length := by
    rw [he, List.length_append, List.length_cons]
    omega
  have hn : tick p.counter = some (p.counter + 1) := by
    rw [tick_eq_some, hp.typing.counter, alone_length]
    omega
  have hd := burst_distinct h he
  have hgiven : (p.counter + 1, p.peer) = given q₀ pre.length := by
    rw [given_next hp.typing hn, alone_length]
  have hrec := typing_received hp.typing hd (burst_clear h he hp) hn hp.idle
  have hshown : Shown q₀ (enlisted p op (p.counter + 1)) := by
    apply shown_same hp.shown (DeliveryRuns.sameKnowledge_tree (enlisted_tree _ _ _))
    rw [enlisted_fired, List.filterMap_append]
    simp [shownIde]
  have hnamed : ∀ a ∈ alone pre ++ [⟨0, op⟩], NamesParent a.op := by
    intro a ha
    rw [← alone_snoc, alone, List.mem_map] at ha
    obtain ⟨o, ho, rfl⟩ := ha
    have hin : o ∈ calls := by
      rw [he]
      rcases List.mem_append.mp ho with ho | ho
      · exact List.mem_append_left _ ho
      · rw [List.mem_singleton.mp ho]
        simp
    obtain ⟨j, hj⟩ := List.getElem?_of_mem hin
    obtain ⟨x, hx, _⟩ := h.parents j o hj
    exact resolved_names hx
  have hpop : ∀ s item s₁, (Typing q₀ (alone pre ++ [⟨0, op⟩]) none s ∧ Shown q₀ s) →
      s.popIde = some (item, s₁) →
      Typing q₀ (alone pre ++ [⟨0, op⟩]) (some item) s₁ ∧ Shown q₀ s₁ := by
    rintro s item s₁ ⟨ht, hs⟩ hpop
    obtain ⟨rest, _, rfl⟩ := popIde_eq hpop
    exact ⟨typing_popped ht hpop, shown_same hs (DeliveryRuns.sameKnowledge_tree rfl) rfl⟩
  have hstep : ∀ {s item s'}, Typing q₀ (alone pre ++ [⟨0, op⟩]) (some item) s ∧ Shown q₀ s →
      RetriedIde s item s' → Typing q₀ (alone pre ++ [⟨0, op⟩]) none s' ∧ Shown q₀ s' :=
    fun hs hr => ⟨typing_retried hs.1 hr, shown_retried hs.1 hs.2 hr⟩
  obtain ⟨p₁, hp₁, hr⟩ := (retryIde_cases (typing_sound hrec) op).resolve_right
    fun hc => held_safe hrec hnamed hc.2
  obtain ⟨p', hp'⟩ := drainIde_returns (fun s hs => typing_sound hs.1)
    (fun s item s₁ s₂ hs _ hpp hr => hstep (hpop s item s₁ hs hpp) hr) (hstep ⟨hrec, hshown⟩ hr)
    fun s item s₁ hs _ hpp => held_safe (hpop s item s₁ hs hpp).1 hnamed
  obtain ⟨⟨htyping, hlog⟩, hidle⟩ := drainIde_keeps (fun s hs => typing_sound hs.1)
    (fun s item s₁ s₂ hs _ hpp hr => hstep (hpop s item s₁ hs hpp) hr)
    (hstep ⟨hrec, hshown⟩ hr) hp'
  have hcall : p.addIdeOperation op = some p' := by
    rw [addIde_eq (typing_sound hp.typing) hn (hgiven ▸ burst_fresh hl h he hp), hp₁]
    exact hp'
  refine ⟨p', hcall, ⟨alone_snoc pre op ▸ htyping, hlog, hidle⟩, fun r hk => ?_, ?_⟩
  · obtain ⟨rel, hrel⟩ := known_iff_holds.mp hk
    rcases hp.typing.sourced r _ rel hrel with h₀ | ⟨i, a, _, ha, hx, _⟩
    · exact given_unknown hl _ (known_iff_holds.mpr ⟨rel, h₀⟩)
    · have hlt := index_lt ha
      rw [alone_length, ← given_inj hx] at hlt
      omega
  · obtain ⟨l, hfired⟩ := confirms_first (typing_sound hp.typing) hn hcall
    rw [← hgiven]
    refine ⟨l, hfired, fun c hc => ?_⟩
    -- The confirmations of the log are as many as the adds.
    have hcount := congrArg List.length htyping.confirmed
    have hcons : ∀ x, (Callback.ideAddConfirm x :: l).filterMap confirmedOf =
        x :: l.filterMap confirmedOf := fun _ => rfl
    rw [hfired, List.filterMap_append, hcons, hp.typing.confirmed] at hcount
    simp only [List.length_append, List.length_mapIdx, List.length_cons, List.length_nil] at hcount
    have hin : c ∈ l.filterMap confirmedOf := List.mem_filterMap.mpr ⟨_, hc, rfl⟩
    have := List.length_pos_of_mem hin
    omega

end Calls

section Runs

variable {q₀ q : SharQueue} {calls : List IdeAdd} {ref : FileRef} {dirPath : PathBuf}
  {read : Except String (List FsEntry)} {peer : ℕ}

theorem burst_run (hl : SharQueue.new dirPath read peer = some (.ok q₀)) (h : Burst q₀ ref calls)
    (hroom : q₀.counter + calls.length < 2 ^ 32) {pre : List IdeAdd} :
    ∀ {post : List IdeAdd}, calls = pre ++ post →
      ∃ p, pre.foldlM SharQueue.addIdeOperation q₀ = some p ∧ Landing q₀ pre p := by
  induction pre using List.reverseRecOn with
  | nil =>
    intro post _
    obtain ⟨ht, hw⟩ := loaded_typing hl
    obtain ⟨_, _, hq⟩ := PathRouting.new_tree hl
    have hf : q₀.fired = [] := by rw [hq]
    refine ⟨q₀, rfl, ht, ⟨?_, ?_, ?_⟩, hw⟩
    all_goals simp [hf]
  | append_singleton pre op ih =>
    intro post he
    rw [List.append_assoc, List.singleton_append] at he
    obtain ⟨p, hpre, hp⟩ := ih he
    obtain ⟨p', hp', hland, _⟩ := burst_call hl h he hp hroom
    exact ⟨p', by simp [List.foldlM_append, hpre, hp'], hland⟩

/-- Along an acyclic relation every parent comes down to a loaded character. -/
theorem burst_arrived (h : Burst q₀ ref calls) {i : ℕ} (hi : i < calls.length) :
    Arrived q₀ (alone calls) ref (given q₀ i) := by
  let below : Fin calls.length → Fin calls.length → Prop :=
    fun i j => Relation.TransGen (DependsOn q₀ calls) j i
  have htrans : IsTrans (Fin calls.length) below := ⟨fun _ _ _ hab hbc => hbc.trans hab⟩
  have hirrefl : Std.Irrefl below := ⟨fun i => h.acyclic i⟩
  have hwf : WellFounded below := Finite.wellFounded_of_trans_of_irrefl below
  suffices hall : ∀ j : Fin calls.length, Arrived q₀ (alone calls) ref (given q₀ j) from
    hall ⟨i, hi⟩
  intro j
  induction j using hwf.induction with
  | _ j ih =>
    have hj : calls[j.val]? = some calls[j] := List.getElem?_eq_getElem j.isLt
    obtain ⟨p, hp, hcase⟩ := h.parents j _ hj
    refine .sent (alone_get.mpr ⟨_, hj, rfl⟩) (h.routed _ (List.mem_of_getElem? hj)) hp ?_
    rcases hcase with hk | ⟨k, hk, rfl, _⟩
    · exact .loaded hk
    · exact ih ⟨k, hk⟩ (.single ⟨_, hj, hp⟩)

theorem resolved_arrived (h : Burst q₀ ref calls) {j : ℕ} {op : IdeAdd} {p : Identity}
    (hj : calls[j]? = some op) (hp : resolved q₀ calls op = some p) :
    Arrived q₀ (alone calls) ref p := by
  obtain ⟨x, hx, hcase⟩ := h.parents j op hj
  rw [hp, Option.some.injEq] at hx
  subst hx
  rcases hcase with hk | ⟨k, hk, rfl, _⟩
  · exact .loaded hk
  · exact burst_arrived h hk

theorem burst_idle (h : Burst q₀ ref calls) (hq : Landing q₀ calls q) (op : IdeAdd) :
    ¬ Waiting q op := by
  intro hwait
  obtain ⟨i, a, ha, rfl, _, hm⟩ := hq.typing.held op (Or.inr (Or.inr hwait))
  obtain ⟨op, hi, rfl⟩ := alone_get.mp ha
  obtain ⟨p, hp, _⟩ := h.parents i op hi
  rw [show meant q₀ (alone calls) ⟨0, op⟩ = some p from hp] at hm
  rcases hwait with ⟨tag, hwt⟩ | ⟨k, hwt⟩
  · obtain ⟨htag, hnone⟩ := hq.typing.tagWaits tag op hwt
    rw [(meant_of_tagOf q₀ q [] ⟨0, op⟩ htag).2, hnone] at hm
    exact absurd hm (by simp)
  · obtain ⟨hk, hn⟩ := hq.typing.waits k op hwt
    rw [hk, Option.some.injEq] at hm
    subst hm
    exact hn ref (h.routed op (List.mem_of_getElem? hi))
      (arrived_known hq.typing hq.idle (resolved_arrived h hi hp))

theorem burst_landed (hl : SharQueue.new dirPath read peer = some (.ok q₀))
    (h : Burst q₀ ref calls) (hq : Landing q₀ calls q) : LandedOnce q₀ ref calls q := by
  have hidle := burst_idle h hq
  have hknown : ∀ {i}, i < calls.length → Known q ref (given q₀ i) := fun hi =>
    arrived_known hq.typing hq.idle (burst_arrived h hi)
  have htyped : ∀ {r x rel}, Typed q₀ (alone calls) r x rel ↔ r = ref ∧
      ∃ i op p, calls[i]? = some op ∧ x = given q₀ i ∧ resolved q₀ calls op = some p ∧
        rel = .new op.val p.1 p.2 := by
    intro r x rel
    constructor
    · rintro ⟨i, a, p, ha, hx, hr, hm, hrel⟩
      obtain ⟨op, hi, rfl⟩ := alone_get.mp ha
      rw [h.routed op (List.mem_of_getElem? hi), Option.some.injEq] at hr
      exact ⟨hr.symm, i, op, p, hi, hx, hm, hrel⟩
    · rintro ⟨rfl, i, op, p, hi, hx, hm, hrel⟩
      exact ⟨i, _, p, alone_get.mpr ⟨op, hi, rfl⟩, hx, h.routed op (List.mem_of_getElem? hi), hm,
        hrel⟩
  have hholds : ∀ r x rel, Holds q r x rel ↔
      Holds q₀ r x rel ∨ Typed q₀ (alone calls) r x rel := by
    intro r x rel
    refine ⟨hq.typing.sourced r x rel, fun hor => hor.elim (hq.typing.kept r x rel) fun ht => ?_⟩
    obtain ⟨rfl, i, op, p, hi, rfl, _⟩ := htyped.mp ht
    obtain ⟨s, hs⟩ := known_iff_holds.mp (hknown (List.getElem?_eq_some_iff.mp hi).1)
    rcases hq.typing.sourced r _ s hs with h₀ | ht'
    · exact absurd (known_iff_holds.mpr ⟨s, h₀⟩) (given_unknown hl i)
    · exact (typed_unique ht ht').2 ▸ hs
  have hmem : ∀ x, x ∈ q.fired.filterMap shownIde ↔ x ∈ (List.range calls.length).map (given q₀) := by
    intro x
    rw [hq.shown.shown, List.mem_map]
    constructor
    · rintro ⟨r, hk, hn⟩
      obtain ⟨s, hs⟩ := known_iff_holds.mp hk
      rcases (hholds r x s).mp hs with h₀ | ht
      · exact absurd (known_iff_holds.mpr ⟨s, h₀⟩) hn
      · obtain ⟨_, i, op, _, hi, hx, _⟩ := htyped.mp ht
        exact ⟨i, List.mem_range.mpr (List.getElem?_eq_some_iff.mp hi).1, hx.symm⟩
    · rintro ⟨i, hi, rfl⟩
      exact ⟨ref, hknown (List.mem_range.mp hi), given_unknown hl i⟩
  refine ⟨?_, ?_, hq.idle, fun r x rel => by rw [hholds, htyped], hq.typing.live, ?_, ?_⟩
  · exact empty_of_tight hq.typing.tight fun k op hw => hidle op (Or.inr ⟨k, hw⟩)
  · exact empty_of_tight hq.typing.tagTight fun tag op hw => hidle op (Or.inl ⟨tag, hw⟩)
  · exact (List.perm_ext_iff_of_nodup hq.shown.once
      (List.nodup_range.map fun i j => given_inj)).mpr hmem
  · rintro j i ⟨op, hj, hp⟩ hi
    have hlt := (List.getElem?_eq_some_iff.mp hj).1
    obtain ⟨l, r, hlr⟩ := List.append_of_mem ((hmem (given q₀ j)).mpr
      (List.mem_map.mpr ⟨j, List.mem_range.mpr hlt, rfl⟩))
    have hh := (hholds ref (given q₀ j) _).mpr (Or.inr (htyped.mpr ⟨rfl, j, op, _, hj, rfl, hp, rfl⟩))
    refine ⟨l, r, hlr, ?_⟩
    rcases hq.shown.parents_first l r ref _ _ hlr hh with hk | hk | hin
    · exact absurd hk (given_unknown hl j)
    · exact absurd hk (given_unknown hl i)
    · exact hin

/-- Whatever the order, each add of the set is confirmed by its own call and lands once. -/
theorem lands_once (hl : SharQueue.new dirPath read peer = some (.ok q₀)) (h : Burst q₀ ref calls)
    (hroom : q₀.counter + calls.length < 2 ^ 32) :
    (∃ q, calls.foldlM SharQueue.addIdeOperation q₀ = some q ∧ LandedOnce q₀ ref calls q) ∧
    ∀ pre op post, calls = pre ++ op :: post →
      ∃ p p', pre.foldlM SharQueue.addIdeOperation q₀ = some p ∧ p.addIdeOperation op = some p' ∧
        Confirms q₀ p op pre.length p' := by
  constructor
  · obtain ⟨q, hq, hland⟩ := burst_run hl h hroom (List.append_nil calls).symm
    exact ⟨q, hq, burst_landed hl h hland⟩
  · intro pre op post he
    obtain ⟨p, hp, hland⟩ := burst_run hl h hroom he
    obtain ⟨p', hp', _, hconf⟩ := burst_call hl h he hland hroom
    exact ⟨p, p', hp, hp', hconf⟩

end Runs

def waitingAdd : IdeAdd := ⟨[.rootDir, .normal "s", .normal "f"], none, none, some 1, 'x', 2, 0⟩

def parentAdd : IdeAdd := ⟨[.rootDir, .normal "s", .normal "f"], some 1, some 0, none, 'y', 1, 0⟩

def laterAdd : IdeAdd := ⟨[.rootDir, .normal "s", .normal "f"], some 2, some 5, none, 'z', 3, 0⟩

/-- The first waits for the second by its tag, the third names the first by its identity. -/
def threeAdds : List IdeAdd := [waitingAdd, parentAdd, laterAdd]

theorem lands_once_three : ∃ q₀ q, SharQueue.new [.rootDir, .normal "s"]
    (.ok [.file "f" (.ok ['a'])]) 5 = some (.ok q₀) ∧
    threeAdds.foldlM SharQueue.addIdeOperation q₀ = some q ∧ LandedOnce q₀ ([], 0) threeAdds q := by
  have hq : ∃ q₀, SharQueue.new [.rootDir, .normal "s"] (.ok [.file "f" (.ok ['a'])]) 5 =
      some (.ok q₀) ∧ q₀.counter = 1 ∧ q₀.peer = 5 ∧
      (∀ op ∈ threeAdds, q₀.tree.findFile op.filePath = some ([], 0)) ∧ Known q₀ ([], 0) (1, 0) :=
    ⟨_, rfl, rfl, rfl, by decide, ⟨_, rfl, by decide⟩⟩
  obtain ⟨q₀, hl, hc, hpeer, hroute, hknown⟩ := hq
  have hgiven : ∀ i, given q₀ i = (i + 2, 5) := by
    intro i
    simp only [given, hc, hpeer, Prod.mk.injEq, and_true]
    omega
  have hres : resolved q₀ threeAdds waitingAdd = some (given q₀ 1) ∧
      resolved q₀ threeAdds parentAdd = some (1, 0) ∧
      resolved q₀ threeAdds laterAdd = some (given q₀ 0) := ⟨rfl, rfl, by rw [hgiven]; rfl⟩
  obtain ⟨hw, hp, hlat⟩ := hres
  have hcases : ∀ (j : ℕ) (op : IdeAdd), threeAdds[j]? = some op →
      j = 0 ∧ op = waitingAdd ∨ j = 1 ∧ op = parentAdd ∨ j = 2 ∧ op = laterAdd := by
    intro j op hj
    rcases j with _ | _ | _ | j <;> simp_all [threeAdds]
  -- The second add is at the bottom, then the first, then the third.
  have hrank : ∀ {j i}, DependsOn q₀ threeAdds j i → [1, 0, 2].getD i 0 < [1, 0, 2].getD j 0 := by
    rintro j i ⟨op, hj, hr⟩
    rcases hcases j op hj with ⟨rfl, rfl⟩ | ⟨rfl, rfl⟩ | ⟨rfl, rfl⟩
    · rw [hw, Option.some.injEq] at hr
      rw [← given_inj hr]
      decide
    · rw [hp, hgiven, Option.some.injEq, Prod.mk.injEq] at hr
      omega
    · rw [hlat, Option.some.injEq] at hr
      rw [← given_inj hr]
      decide
  have h : Burst q₀ ([], 0) threeAdds := by
    refine ⟨hroute, by decide, fun j op hj => ?_, fun i ht => ?_⟩
    · rcases hcases j op hj with ⟨rfl, rfl⟩ | ⟨rfl, rfl⟩ | ⟨rfl, rfl⟩
      · exact ⟨_, hw, Or.inr ⟨1, by decide, rfl, fun hn => absurd hn (by decide)⟩⟩
      · exact ⟨_, hp, Or.inl hknown⟩
      · exact ⟨_, hlat, Or.inr ⟨0, by decide, rfl, fun _ => by decide⟩⟩
    · have hdown : ∀ {j i}, Relation.TransGen (DependsOn q₀ threeAdds) j i →
          [1, 0, 2].getD i 0 < [1, 0, 2].getD j 0 := by
        intro j i ht
        induction ht with
        | single hd => exact hrank hd
        | tail _ hd ih => exact (hrank hd).trans ih
      exact absurd (hdown ht) (lt_irrefl _)
  obtain ⟨q, hq, hland⟩ := (lands_once hl h (by rw [hc]; decide)).1
  exact ⟨q₀, q, hl, hq, hland⟩

end LandsOnce
