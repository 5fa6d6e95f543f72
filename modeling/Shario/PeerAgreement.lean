import Shario.PeerSession
import Shario.Sessions

/-! Authorship: whatever the peers edit and however the messages travel, a character that
carries the id of a peer is held by that peer, with the value and the parent that every holder
has. -/
namespace PeerAgreement

open CrdtTypes FileTree CharacterTree FilePlacement FileSafety Convergence DirectoryTree ShareQueue
  WorklistDrain TreeCalls QueueSteps IdeSteps QueueRuns NetworkDelivery DeliveryRuns PathRouting
  CatchUp BacklogKeys NewIdentities GuardedRuns PeerSession
open ExactlyOnce (holds_unique)

def IdePending (q : SharQueue) (op : IdeAdd) : Prop :=
  op ∈ q.ideWorklist ∨ Sessions.Waiting q op

section Replica

variable {ι : Type} (P : Peers ι) (i : ι)

structure Fit (q : SharQueue) : Prop where
  routes : SameRoutes (P.loaded i).tree q.tree
  sound : AllFiles Sound q.tree
  peer : q.peer = (P.loaded i).peer
  own : ∀ tag x, q.tagIdentities.lookup tag = some x → x.2 = (P.loaded i).peer ∧ x ≠ root
  named : ∀ op, IdePending q op → Names (P.loaded i) op.filePath

/-- The replica holds what the operation is about, as the operation has it. -/
def Shown (q : SharQueue) (item : NetworkOp) : Prop :=
  subject item ≠ root ∧ ∃ ref s, Home P i (itemPath item) ref ∧ Holds q ref (subject item) s ∧
    ∀ op, item = .add op → op.crdt.relation = s

/-- Within an IDE add to `q`; `owed` has been applied but not logged. -/
structure Editing (q : SharQueue) (owed : List NetworkOp) (p : SharQueue) : Prop where
  fit : Fit P i p
  idle : p.networkWorklist = q.networkWorklist
  backlog : p.networkBacklog = q.networkBacklog
  kept : ∀ ref x s, Holds q ref x s → Holds p ref x s
  grown : ∀ ref x s, Holds p ref x s → Holds q ref x s ∨ x.2 = (P.loaded i).peer
  before : ∀ item ∈ issued q, item ∈ issued p
  log : ∀ item ∈ issued p, item ∈ issued q ∨ Shown P i p item
  owed : ∀ item ∈ owed, Shown P i p item

/-- What an edit does to a replica, seen from outside. -/
structure Edited (q q' : SharQueue) : Prop where
  fit : Fit P i q'
  idle : Idle q'
  kept : ∀ ref x s, Holds q ref x s → Holds q' ref x s
  grown : ∀ ref x s, Holds q' ref x s → Holds q ref x s ∨ x.2 = (P.loaded i).peer
  waits : ∀ k item, Waits q'.networkBacklog k item →
    Waits q.networkBacklog k item ∨ ∃ op, item = .remove op
  before : ∀ item ∈ issued q, item ∈ issued q'
  log : ∀ item ∈ issued q', item ∈ issued q ∨ Shown P i q' item

end Replica

section Edits

variable {ι : Type} {P : Peers ι} {i : ι} {q p p' : SharQueue} {op : IdeAdd} {x parent : Identity}
  {pos : Position} {t : SharDirectory} {o : Outcome} {owed : List NetworkOp} {item : NetworkOp}

theorem shown_mono (h : ∀ ref x s, Holds p ref x s → Holds p' ref x s) (hs : Shown P i p item) :
    Shown P i p' item := by
  obtain ⟨hne, ref, s, hhome, hh, ha⟩ := hs
  exact ⟨hne, ref, s, hhome, h ref _ s hh, ha⟩

theorem fit_tree (h : Fit P i p) (hr : SameRoutes p.tree p'.tree) (hs : AllFiles Sound p'.tree)
    (hp : p'.peer = p.peer) (ht : p'.tagIdentities = p.tagIdentities)
    (hn : ∀ op, IdePending p' op → IdePending p op) : Fit P i p' :=
  ⟨h.routes.trans hr, hs, hp.trans h.peer, ht ▸ h.own, fun op hop => h.named op (hn op hop)⟩

theorem editing_tree (h : Editing P i q owed p) {path : PathBuf} {c : CRDT}
    (hc : c.peer = (P.loaded i).peer) (ha : TreeAdded p.tree path c o t) (ht : p'.tree = t)
    (hnet : p'.networkWorklist = p.networkWorklist ∧ p'.networkBacklog = p.networkBacklog)
    (hpeer : p'.peer = p.peer) (htags : p'.tagIdentities = p.tagIdentities)
    (hpend : ∀ op, IdePending p' op → IdePending p op) (hlog : issued p' = issued p) :
    Editing P i q owed p' := by
  have hholds := added_holds ha ht
  have hkeep : ∀ ref y s, Holds p ref y s → Holds p' ref y s := fun ref y s => (hholds ref y s).1
  refine ⟨fit_tree h.fit (ht ▸ ha.routes) (ht ▸ ha.sound h.fit.sound) hpeer htags hpend,
    hnet.1.trans h.idle, hnet.2.trans h.backlog, fun ref y s hy => hkeep ref y s (h.kept ref y s hy),
    ?_, fun item hi => ?_, fun item hi => ?_, fun item hi => shown_mono hkeep (h.owed item hi)⟩
  · intro ref y s hy
    rcases (hholds ref y s).2 hy with hy | ⟨_, rfl, _⟩
    · exact h.grown ref y s hy
    · exact Or.inr hc
  · rw [hlog]
    exact h.before item hi
  · rw [hlog] at hi
    exact (h.log item hi).imp id (shown_mono hkeep)

theorem lands_shown (h : Fit P i p) (hn : Names (P.loaded i) op.filePath)
    (hl : Lands p op x parent pos t) (ht : p'.tree = t) :
    Shown P i p' (.add (shownOp (P.loaded i) op x parent pos)) := by
  obtain ⟨r, ref, hhome, hpath⟩ := names_home hn
  obtain ⟨ref', hr, hh, _⟩ := landed_holds h.sound hl.added ht
  have href : ref' = ref := by
    rw [h.routes.findFile, hpath, (home_local hhome).2, Option.some.injEq] at hr
    exact hr.symm
  refine ⟨(h.own _ _ hl.tagged).2, ref, _, ?_, href ▸ hh, ?_⟩
  · rw [itemPath, shownOp, hpath, home_relative]
    exact hhome
  · intro op' he
    rw [← NetworkOp.add.inj he]
    rfl

theorem pending_queueIde {k : Identity} (hop : IdePending (p.queueIdeBacklog k) op) :
    IdePending p op := by
  rcases hop with hop | ⟨tag, hop⟩ | ⟨j, hop⟩
  · rcases (queueIde_worklist p k op).mp hop with hop | hop
    · exact Or.inl hop
    · exact Or.inr (Or.inr ⟨k, hop⟩)
  · rw [queueIde_tagBacklog] at hop
    exact Or.inr (Or.inl ⟨tag, hop⟩)
  · exact Or.inr (Or.inr ⟨j, ((queueIde_backlog p k j op).mp hop).1⟩)

theorem editing_held (h : Editing P i q owed p) (hn : Names (P.loaded i) op.filePath)
    (hh : Held p op p') : Editing P i q owed p' := by
  have hpush : ∀ {w v}, Fit P i p → (∀ op', IdePending w op' → IdePending v op' ∨ op' = op) →
      (∀ op', IdePending v op' → IdePending p op') →
      ∀ op', IdePending w op' → Names (P.loaded i) op'.filePath := by
    intro w v hf hw hp op' hop
    rcases hw op' hop with hop | rfl
    · exact hf.named op' (hp op' hop)
    · exact hn
  cases hh with
  | @untagged tag _ _ =>
    refine { h with fit := { h.fit with named := ?_ } }
    refine hpush (v := p) h.fit (fun op' hop => ?_) fun _ hop => hop
    rcases hop with hop | ⟨tag', hop⟩ | hop
    · exact Or.inl (Or.inl hop)
    · rw [waitingTag, waits_push] at hop
      exact hop.imp (fun hop => Or.inr (Or.inl ⟨tag', hop⟩)) And.right
    · exact Or.inl (Or.inr (Or.inr hop))
  | @repeated x parent t _ hx ht =>
    exact editing_tree h (c := ideCrdt op x parent) (h.fit.own _ _ hx).1 ht rfl ⟨rfl, rfl⟩ rfl rfl
      (fun _ hop => hop) rfl
  | @early x parent e t _ hx ht =>
    have hw : Editing P i q owed (withTree p t) := editing_tree h (c := ideCrdt op x parent)
      (h.fit.own _ _ hx).1 ht rfl ⟨rfl, rfl⟩ rfl rfl (fun _ hop => hop) rfl
    refine { hw with fit := { hw.fit with named := ?_ } }
    refine hpush (v := withTree p t) h.fit (fun op' hop => ?_) fun _ hop => hop
    rcases hop with hop | hop | ⟨k, hop⟩
    · exact Or.inl (Or.inl hop)
    · exact Or.inl (Or.inr (Or.inl hop))
    · rw [waitingIde, waits_push] at hop
      exact hop.imp (fun hop => Or.inr (Or.inr ⟨k, hop⟩)) And.right

theorem editing_lands (h : Editing P i q owed p) (hn : Names (P.loaded i) op.filePath)
    (hl : Lands p op x parent pos t) :
    Editing P i q owed ((withTree p t).queueIdeBacklog x) ∧
      Shown P i ((withTree p t).queueIdeBacklog x)
        (.add (shownOp (P.loaded i) op x parent pos)) := by
  refine ⟨editing_tree h (c := ideCrdt op x parent) (h.fit.own _ _ hl.tagged).1 hl.added
    (queueIde_tree _ _) ⟨queueIde_networkWorklist _ _, queueIde_network _ _⟩ (queueIde_peer _ _)
    (queueIde_tags _ _) (fun op' hop => ?_) (queueIde_issued _ _),
    lands_shown h.fit hn hl (queueIde_tree _ _)⟩
  exact pending_queueIde (p := withTree p t) hop

theorem relative_same (h : Fit P i p) (path : PathBuf) :
    p.toRelativePath path = (P.loaded i).toRelativePath path := by
  rw [SharQueue.toRelativePath, SharQueue.toRelativePath, SharQueue.root, SharQueue.root,
    h.routes.dirName]

theorem ideShown_broadcast (h : Fit P i p) (op : IdeAdd) (x parent : Identity) (pos : Position) :
    broadcast (ideShown p op x parent pos) =
      some (.add (shownOp (P.loaded i) op x parent pos)) := by
  rw [ideShown, broadcast, shownOp, relative_same h]

theorem editing_fire (h : Editing P i q owed p)
    (hs : Shown P i p (.add (shownOp (P.loaded i) op x parent pos))) :
    Editing P i q owed (p.fire (ideShown p op x parent pos)) := by
  have hissued : issued (p.fire (ideShown p op x parent pos)) =
      issued p ++ [.add (shownOp (P.loaded i) op x parent pos)] := by
    rw [issued_fire, ideShown_broadcast h.fit, Option.toList_some]
  refine ⟨⟨h.fit.routes, h.fit.sound, h.fit.peer, h.fit.own, h.fit.named⟩, h.idle, h.backlog, h.kept,
    h.grown, fun item hi => ?_, fun item hi => ?_, h.owed⟩
  · rw [hissued]
    exact List.mem_append_left _ (h.before item hi)
  · rw [hissued] at hi
    rcases List.mem_append.mp hi with hi | hi
    · exact h.log item hi
    · exact Or.inr (List.mem_singleton.mp hi ▸ hs)

theorem editing_retried (h : Editing P i q owed p) (hpop : p.popIde = some (op, p'))
    {p₂ : SharQueue} (hr : RetriedIde p' op p₂) : Editing P i q owed p₂ := by
  obtain ⟨rest, hl, rfl⟩ := popIde_eq hpop
  have hn : Names (P.loaded i) op.filePath := h.fit.named op (Or.inl (by simp [hl]))
  have h' : Editing P i q owed { p with ideWorklist := rest } := by
    refine { h with fit := { h.fit with named := fun o ho => h.fit.named o ?_ } }
    exact ho.imp (fun ho => by simp [hl, show o ∈ rest from ho]) id
  cases hr with
  | held hh => exact editing_held h' hn hh
  | landed hl =>
    obtain ⟨hJ, hs⟩ := editing_lands h' hn hl
    exact editing_fire hJ hs

theorem editing_enlisted (h : Fit P i q) {n : ℕ} (hn' : tick q.counter = some n) :
    Editing P i q [] (enlisted q op n) := by
  have hholds : ∀ ref x s, Holds (enlisted q op n) ref x s ↔ Holds q ref x s :=
    (sameKnowledge_tree (enlisted_tree q op n)).holds
  obtain ⟨_, rfl⟩ := tick_eq_some.mp hn'
  refine ⟨⟨?_, ?_, (enlisted_peer _ _ _).trans h.peer, ?_, ?_⟩, enlisted_networkWorklist _ _ _,
    NewIdentities.enlisted_network _ _ _, fun ref x s => (hholds ref x s).mpr,
    fun ref x s hx => Or.inl ((hholds ref x s).mp hx), ?_, ?_, by simp⟩
  · rw [enlisted_tree]
    exact h.routes
  · rw [enlisted_tree]
    exact h.sound
  · intro tag x hx
    rw [enlisted_tags] at hx
    by_cases ht : tag = op.tag
    · subst ht
      rw [Finmap.lookup_insert, Option.some.injEq] at hx
      subst hx
      exact ⟨h.peer, by simp [root]⟩
    · rw [Finmap.lookup_insert_of_ne _ ht] at hx
      exact h.own tag x hx
  · intro o ho
    rcases ho with ho | ⟨tag, ho⟩ | ⟨k, ho⟩
    · rcases (enlisted_worklist q op o _).mp ho with ho | ho
      · exact h.named o (Or.inl ho)
      · exact h.named o (Or.inr (Or.inl ⟨_, ho⟩))
    · exact h.named o (Or.inr (Or.inl ⟨tag, ((enlisted_tagWaits q op o _ tag).mp ho).1⟩))
    · rw [enlisted_backlog] at ho
      exact h.named o (Or.inr (Or.inr ⟨k, ho⟩))
  · simp
  · simp +contextual

theorem edited_add (h : Fit P i q) (hidle : Idle q) (hn : Names (P.loaded i) op.filePath)
    (he : q.addIdeOperation op = some p) : Edited P i q p := by
  have howed : ∀ x parent pos, shownOp q op x parent pos = shownOp (P.loaded i) op x parent pos := by
    intro x parent pos
    rw [shownOp, shownOp, relative_same h]
  have hfirst : ∀ {n}, tick q.counter = some n → Editing P i q [] (enlisted q op n) :=
    editing_enlisted h
  obtain ⟨hJ, hide⟩ := addIde_owing (J := Editing P i q) (fun _ _ hp => hp.fit.sound)
    (fun p x parent pos hp => by
      have hs := hp.owed _ (List.mem_singleton.mpr rfl)
      rw [howed] at hs
      exact { editing_fire hp hs with owed := by simp })
    (fun n q' hn' hh => editing_held (hfirst hn') hn hh)
    (fun n x parent pos t hn' hl => by
      obtain ⟨hp, hs⟩ := editing_lands (hfirst hn') hn hl
      refine { hp with owed := fun item hi => ?_ }
      rw [List.mem_singleton.mp hi, howed]
      exact hs)
    (fun _ _ _ _ _ hp hpop hr => editing_retried hp hpop hr) h.sound he
  refine ⟨hJ.fit, ⟨hJ.idle.trans hidle.network, hide⟩, hJ.kept, hJ.grown, fun k item hw => ?_,
    hJ.before, hJ.log⟩
  rw [hJ.backlog] at hw
  exact Or.inl hw

theorem edited_remove (h : Fit P i q) (hidle : Idle q) {op : Remove}
    (hn : Names (P.loaded i) op.filePath) (he : q.removeIdeOperation op = some p) :
    Edited P i q p := by
  obtain ⟨q₁, hq₁, hr⟩ : ∃ q₁, q.removeIdeOperation op = some q₁ ∧ IdeRemoved q op q₁ := by
    rcases removeIde_cases h.sound op with hr | ⟨hnone, _⟩
    · exact hr
    · rw [he] at hnone
      exact absurd hnone (by simp)
  rw [he, Option.some.injEq] at hq₁
  subst hq₁
  have hfit : ∀ {o t}, op.identity ≠ root → TreeRemoved q.tree op.filePath op.identity o t →
      Fit P i (withTree q t) := fun hx ht =>
    fit_tree h ht.routes (ht.sound hx h.sound) rfl rfl fun _ hop => hop
  cases hr with
  | rootRemove _ =>
    exact ⟨h, hidle, fun _ _ _ hx => hx, fun _ _ _ hx => Or.inl hx, fun _ _ hw => Or.inl hw,
      fun _ hi => hi, fun _ hi => Or.inl hi⟩
  | again hx ht =>
    have hh : ∀ r y s, Holds (withTree q _) r y s ↔ Holds q r y s := removed_holds ht rfl
    exact ⟨hfit hx ht, ⟨hidle.network, hidle.ide⟩, fun r y s => (hh r y s).mpr,
      fun r y s hy => Or.inl ((hh r y s).mp hy), fun _ _ hw => Or.inl hw, fun _ hi => hi,
      fun _ hi => Or.inl hi⟩
  | early hx ht =>
    have hh : ∀ r y s, Holds (withTree q _) r y s ↔ Holds q r y s := removed_holds ht rfl
    have hf := hfit hx ht
    refine ⟨⟨hf.routes, hf.sound, hf.peer, hf.own, hf.named⟩, ⟨hidle.network, hidle.ide⟩,
      fun r y s => (hh r y s).mpr, fun r y s hy => Or.inl ((hh r y s).mp hy), fun k item hw => ?_,
      fun _ hi => hi, fun _ hi => Or.inl hi⟩
    rw [waiting_backlog, waits_push] at hw
    exact hw.imp id fun hw => ⟨op, hw.2⟩
  | @fallen pos t hx ht =>
    have hh : ∀ r y s, Holds (withTree q t) r y s ↔ Holds q r y s := removed_holds ht rfl
    have hf := hfit hx ht
    have hissued : issued ((withTree q t).fire (.ideRemove
        { op with filePath := (withTree q t).toRelativePath op.filePath })) =
        issued q ++ [.remove { op with filePath := (withTree q t).toRelativePath op.filePath }] :=
      issued_fire _ _
    refine ⟨⟨hf.routes, hf.sound, hf.peer, hf.own, hf.named⟩, ⟨hidle.network, hidle.ide⟩,
      fun r y s => (hh r y s).mpr, fun r y s hy => Or.inl ((hh r y s).mp hy), fun _ _ hw => Or.inl hw,
      fun item hi => ?_, fun item hi => ?_⟩
    · rw [hissued]
      exact List.mem_append_left _ hi
    · rw [hissued] at hi
      refine (List.mem_append.mp hi).imp id fun hi => ?_
      rw [List.mem_singleton.mp hi]
      obtain ⟨r, ref, hhome, hpath⟩ := names_home hn
      obtain ⟨ref', s, hr, hy⟩ := fallen_holds ht
      have href : ref' = ref := by
        rw [h.routes.findFile, hpath, (home_local hhome).2, Option.some.injEq] at hr
        exact hr.symm
      refine ⟨hx, ref, s, ?_, (hh ref _ s).mpr (href ▸ hy), by simp⟩
      rw [itemPath, relative_same hf, hpath, home_relative]
      exact hhome

theorem edited {e : Edit} (h : Fit P i q) (hidle : Idle q) (hn : Names (P.loaded i) e.path)
    (he : e.call.apply q = some p) : Edited P i q p := by
  cases e with
  | add op => exact edited_add h hidle hn he
  | remove op => exact edited_remove h hidle hn he

end Edits

section Delivery

variable {ι : Type} (P : Peers ι) (i : ι)

/-- An add of the item brings only characters of `H` into the files. -/
def Founded (H : FileRef → Identity → CrdtRelation → Prop) (item : NetworkOp) : Prop :=
  ∀ op ref, item = .add op → route (P.loaded i) item = some ref →
    H ref op.crdt.identity (alive op.crdt.relation)

/-- Between the retries of a delivery to `q`. -/
structure Receiving (H : FileRef → Identity → CrdtRelation → Prop) (q p : SharQueue) : Prop where
  fit : Fit P i p
  idle : p.ideWorklist = []
  kept : ∀ ref x s, Holds q ref x s → Holds p ref x s
  within : ∀ ref x s, Holds p ref x s → H ref x s
  waits : ∀ k item, Waits p.networkBacklog k item → Founded P i H item
  listed : ∀ item ∈ p.networkWorklist, Founded P i H item
  log : issued p = issued q

variable {P i} {H : FileRef → Identity → CrdtRelation → Prop} {q p p₁ p₂ : SharQueue}
  {item : NetworkOp}

theorem founded_local (h : SameRoutes (P.loaded i).tree p.tree) (hf : Founded P i H item) :
    Founded P i H (localItem p item) := by
  rintro op ref he hr
  rw [(local_same h item).1, (local_facts (localItem_twice (peers_absolute P i) item)).1] at hr
  cases item with
  | add op' =>
    rw [← NetworkOp.add.inj he]
    exact hf op' ref rfl hr
  | remove op' => exact absurd he (by simp [localItem])

theorem receiving_popped (h : Receiving P i H q p) (hpop : p.popNetwork = some (item, p₁)) :
    Receiving P i H q p₁ ∧ Founded P i H item := by
  obtain ⟨rest, hl, rfl⟩ := pop_eq hpop
  refine ⟨⟨⟨h.fit.routes, h.fit.sound, h.fit.peer, h.fit.own, h.fit.named⟩, h.idle, h.kept,
    h.within, h.waits, fun j hj => h.listed j (by simp [hl, show j ∈ rest from hj]), h.log⟩,
    h.listed item (by simp [hl])⟩

theorem receiving_retried (h : Receiving P i H q p) (hf : Founded P i H item)
    (hr : Retried p item p₂) : Receiving P i H q p₂ := by
  have hside := retried_ideSide hr
  have hpeer : p₂.peer = p.peer := by
    cases hr with
    | landed _ _ =>
      unfold SharQueue.queueNetworkBacklog
      split <;> rfl
    | _ => rfl
  have hpend : ∀ op, IdePending p₂ op → IdePending p op := by
    intro op hop
    rcases hop with hop | hop | hop
    · exact Or.inl (retried_ide hr ▸ hop)
    · exact Or.inr (Or.inl (hside.2.1 ▸ hop))
    · exact Or.inr (Or.inr (hside.1 ▸ hop))
  have hsound : AllFiles Sound p₂.tree := retried_keeps (P := AllFiles Sound)
    (fun _ _ _ _ _ hP ha => ha.sound hP) (fun _ _ _ _ _ hP hx hr => hr.sound hx hP)
    h.fit.sound hr
  have hfit : Fit P i p₂ := fit_tree h.fit (retried_tree hr) hsound hpeer hside.2.2 hpend
  have hide : p₂.ideWorklist = [] := (retried_ide hr).trans h.idle
  have hlog : issued p₂ = issued q := (retried_issued hr).trans h.log
  -- an add of the item, whatever comes of it
  have hadd : ∀ {op o t}, item = .add op →
      TreeAdded p.tree (localAdd p op).filePath op.crdt o t →
      p₂.tree = t → (∀ ref x s, Holds q ref x s → Holds p₂ ref x s) ∧
        ∀ ref x s, Holds p₂ ref x s → H ref x s := by
    rintro op o t rfl ha ht
    have hh := added_holds ha ht
    refine ⟨fun ref x s hx => (hh ref x s).1 (h.kept ref x s hx), fun ref x s hx => ?_⟩
    rcases (hh ref x s).2 hx with hx | ⟨hroute, rfl, rfl⟩
    · exact h.within ref x s hx
    · exact hf op ref rfl ((local_same h.fit.routes (.add op)).2.symm.trans hroute)
  have hremove : ∀ {op : Remove} {o t}, TreeRemoved p.tree (localRemove p op).filePath op.identity o t →
      p₂.tree = t → (∀ ref x s, Holds q ref x s → Holds p₂ ref x s) ∧
        ∀ ref x s, Holds p₂ ref x s → H ref x s := by
    intro op o t ha ht
    have hh := removed_holds ha ht
    exact ⟨fun ref x s hx => (hh ref x s).mpr (h.kept ref x s hx),
      fun ref x s hx => h.within ref x s ((hh ref x s).mp hx)⟩
  have hlocal := founded_local h.fit.routes hf
  cases hr with
  | rootAdd _ => exact ⟨hfit, hide, h.kept, h.within, h.waits, h.listed, hlog⟩
  | @landed op pos t _ ha =>
    obtain ⟨hk, hw⟩ := hadd rfl ha (queueNetwork_tree _ _)
    refine ⟨hfit, hide, hk, hw, fun k j hj => ?_, fun j hj => ?_, hlog⟩
    · exact h.waits k j ((queueNetwork_backlog _ _ k j).mp hj).1
    · exact ((queueNetwork_worklist _ _ j).mp hj).elim (h.listed j) (h.waits _ j)
  | repeated _ ha =>
    obtain ⟨hk, hw⟩ := hadd rfl ha rfl
    exact ⟨hfit, hide, hk, hw, h.waits, h.listed, hlog⟩
  | early _ ha =>
    obtain ⟨hk, hw⟩ := hadd rfl ha rfl
    refine ⟨hfit, hide, hk, hw, fun k j hj => ?_, h.listed, hlog⟩
    rw [waiting_backlog, waits_push] at hj
    exact hj.elim (h.waits k j) fun hj => hj.2 ▸ hlocal
  | rootRemove _ => exact ⟨hfit, hide, h.kept, h.within, h.waits, h.listed, hlog⟩
  | fallen _ ha =>
    obtain ⟨hk, hw⟩ := hremove ha rfl
    exact ⟨hfit, hide, hk, hw, h.waits, h.listed, hlog⟩
  | again _ ha =>
    obtain ⟨hk, hw⟩ := hremove ha rfl
    exact ⟨hfit, hide, hk, hw, h.waits, h.listed, hlog⟩
  | earlyRemove _ ha =>
    obtain ⟨hk, hw⟩ := hremove ha rfl
    refine ⟨hfit, hide, hk, hw, fun k j hj => ?_, h.listed, hlog⟩
    rw [waiting_backlog, waits_push] at hj
    exact hj.elim (h.waits k j) fun hj => hj.2 ▸ hlocal

theorem receiving_delivered (h : Receiving P i H q q) (hw : q.networkWorklist = [])
    (hf : Founded P i H item) {q' : SharQueue} (hd : deliver q item = some q') :
    Receiving P i H q q' ∧ q'.networkWorklist = [] := by
  refine deliver_keeps (fun p hp => hp.fit.sound) (fun p j p₁ p₂ hp hpop _ hr => by
    obtain ⟨hp₁, hj⟩ := receiving_popped hp hpop
    exact receiving_retried hp₁ hj hr) hw ?_ hd
  refine ⟨⟨h.fit.routes, h.fit.sound, h.fit.peer, h.fit.own, h.fit.named⟩, h.idle, h.kept, h.within,
    h.waits, fun j hj => ?_, h.log⟩
  rw [List.mem_singleton.mp hj]
  exact hf

end Delivery

section Session

variable {ι : Type} (P : Peers ι)

/-- The character was loaded, or the peer whose id it carries holds it. -/
def Authored (σ : Session ι) (r : PathBuf) (x : Identity) (s : CrdtRelation) : Prop :=
  ∃ j ref, Home P j r ref ∧ (Holds (P.loaded j) ref x s ∨
    (P.loaded j).peer = x.2 ∧ Holds (σ.queue j) ref x s)

/-- A message is about a character that has an author, and an add carries what the author has. -/
def Vouched (σ : Session ι) (item : NetworkOp) : Prop :=
  subject item ≠ root ∧ ∃ s, Authored P σ (itemPath item) (subject item) s ∧
    ∀ op, item = .add op → op.crdt.relation = s

/-- What a replica may come to hold while the session is as it is. -/
def Authentic (σ : Session ι) (i : ι) (ref : FileRef) (x : Identity) (s : CrdtRelation) : Prop :=
  ∃ r, Home P i r ref ∧ Authored P σ r x s

structure Honest (σ : Session ι) : Prop where
  fit : ∀ i, Fit P i (σ.queue i)
  idle : ∀ i, Idle (σ.queue i)
  kept : ∀ i ref x s, Holds (P.loaded i) ref x s → Holds (σ.queue i) ref x s
  authored : ∀ i ref x s, Holds (σ.queue i) ref x s → Authentic P σ i ref x s
  pending : ∀ i k item, Waits (σ.queue i).networkBacklog k item → Founded P i (Authentic P σ i) item
  wire : ∀ item, σ.OnWire item → Vouched P σ item

variable {P} {σ σ' : Session ι} {i : ι} {r : PathBuf} {ref : FileRef} {x : Identity}
  {s s' : CrdtRelation} {item : NetworkOp}

theorem authored_mono (h : ∀ j ref x s, Holds (σ.queue j) ref x s → Holds (σ'.queue j) ref x s)
    (ha : Authored P σ r x s) : Authored P σ' r x s := by
  obtain ⟨j, ref, hhome, hs⟩ := ha
  exact ⟨j, ref, hhome, hs.imp id fun hs => ⟨hs.1, h j ref x s hs.2⟩⟩

theorem vouched_mono (h : ∀ j ref x s, Holds (σ.queue j) ref x s → Holds (σ'.queue j) ref x s)
    (hv : Vouched P σ item) : Vouched P σ' item := by
  obtain ⟨hne, s, ha, hadd⟩ := hv
  exact ⟨hne, s, authored_mono h ha, hadd⟩

theorem authored_known (h : Honest P σ) (ha : Authored P σ r x s)
    (hx : x.2 = (P.loaded i).peer) : ∃ ref, Home P i r ref ∧ Known (σ.queue i) ref x := by
  obtain ⟨k, ref, hk, hs⟩ := ha
  rcases hs with hs | ⟨hp, hs⟩
  · obtain ⟨ref', hi⟩ := home_other hk i
    exact ⟨ref', hi, known_iff_holds.mpr ⟨s, h.kept i ref' x s (home_loaded hk hi hs)⟩⟩
  · obtain rfl : k = i := P.distinct (hp.trans hx)
    exact ⟨ref, hk, known_iff_holds.mpr ⟨s, hs⟩⟩

theorem shown_vouched (h : ∀ ref x s, Holds (σ.queue i) ref x s → Authentic P σ i ref x s)
    (hs : Shown P i (σ.queue i) item) : Vouched P σ item := by
  obtain ⟨hne, ref, s, hhome, hh, ha⟩ := hs
  obtain ⟨r, hr, hauth⟩ := h ref _ s hh
  rw [home_path hhome hr] at hauth
  exact ⟨hne, s, hauth, ha⟩

theorem vouched_founded (hv : Vouched P σ item) : Founded P i (Authentic P σ i) item := by
  obtain ⟨_, s, ha, hadd⟩ := hv
  rintro op ref rfl hr
  obtain ⟨j, refj, hj, hs⟩ := id ha
  obtain ⟨ref', hhome⟩ := home_other hj i
  have he : route (P.loaded i) (.add op) = some ref' := home_route hhome
  rw [hr, Option.some.injEq] at he
  subst he
  have hlive : alive s = s := by
    rcases hs with ⟨_, _, rel, _, rfl⟩ | ⟨_, _, _, rel, _, rfl⟩ <;> rfl
  rw [hadd op rfl, hlive]
  exact ⟨_, hhome, ha⟩

theorem honest_start (P : Peers ι) : Honest P P.start := by
  have hnew : ∀ i, ∃ read peer, SharQueue.new (P.dirPath i) read peer = some (.ok (P.loaded i)) := by
    intro i
    obtain ⟨read, peer, _, hnew⟩ := (P.replica i).loaded
    exact ⟨read, peer, hnew⟩
  have hempty : ∀ i, (P.loaded i).ideBacklog = ∅ ∧ (P.loaded i).ideTagBacklog = ∅ ∧
      (P.loaded i).networkBacklog = ∅ ∧ (P.loaded i).tagIdentities = ∅ := by
    intro i
    obtain ⟨read, peer, hi⟩ := hnew i
    obtain ⟨_, _, he⟩ := new_tree hi
    rw [he]
    exact ⟨rfl, rfl, rfl, rfl⟩
  have hfresh : ∀ i, Fresh (P.loaded i) := by
    intro i
    obtain ⟨read, peer, hi⟩ := hnew i
    exact loaded_fresh hi
  refine ⟨fun i => ?_, fun i => ?_, fun _ _ _ _ hx => hx, fun i ref x s hx => ?_, fun i k item hw => ?_,
    fun item hi => ?_⟩
  · obtain ⟨read, peer, hi⟩ := hnew i
    refine ⟨sameRoutes_refl _, fun ref f hf => (loaded_files hi ref f hf).toSound, rfl, ?_, ?_⟩
    · intro tag x hx
      have ht : (P.loaded i).tagIdentities.lookup tag = some x := hx
      rw [(hempty i).2.2.2] at ht
      exact absurd ht (by simp)
    · rintro op (hop | ⟨_, hop⟩ | ⟨_, hop⟩)
      · have hw : (P.loaded i).ideWorklist = [] := (loaded_idle hi).ide
        have hin : op ∈ (P.loaded i).ideWorklist := hop
        rw [hw] at hin
        exact absurd hin (by simp)
      · obtain ⟨l, hl, _⟩ := hop
        have hl' : (P.loaded i).ideTagBacklog.lookup _ = some l := hl
        rw [(hempty i).2.1] at hl'
        exact absurd hl' (by simp)
      · obtain ⟨l, hl, _⟩ := hop
        have hl' : (P.loaded i).ideBacklog.lookup _ = some l := hl
        rw [(hempty i).1] at hl'
        exact absurd hl' (by simp)
  · obtain ⟨read, peer, hi⟩ := hnew i
    exact loaded_idle hi
  · obtain ⟨r, hr⟩ := holds_home (sameRoutes_refl _) hx
    exact ⟨r, hr, i, ref, hr, Or.inl hx⟩
  · obtain ⟨l, hl, _⟩ := hw
    have hl' : (P.loaded i).networkBacklog.lookup k = some l := hl
    rw [(hempty i).2.2.1] at hl'
    exact absurd hl' (by simp)
  · rcases hi with hi | ⟨j, hi⟩
    · exact absurd hi (by simp [Peers.start])
    · have hlog : (P.loaded j).fired = [] := (hfresh j).silent
      simp [Peers.start, issued, hlog] at hi

/-- One replica changes: what it newly holds has an author, and so has what it newly says. -/
theorem honest_changed {q : SharQueue} (h : Honest P σ) (hself : σ'.queue i = q)
    (hsame : ∀ j, j ≠ i → σ'.queue j = σ.queue j) (hfit : Fit P i q) (hidle : Idle q)
    (hkept : ∀ ref x s, Holds (σ.queue i) ref x s → Holds q ref x s)
    (hgrown : ∀ ref x s, Holds q ref x s → Authentic P σ i ref x s ∨ x.2 = (P.loaded i).peer)
    (hwaits : ∀ k item, Waits q.networkBacklog k item → Founded P i (Authentic P σ i) item)
    (hwire : ∀ item, σ'.OnWire item → σ.OnWire item ∨ Shown P i q item) : Honest P σ' := by
  subst hself
  have hmono : ∀ j ref x s, Holds (σ.queue j) ref x s → Holds (σ'.queue j) ref x s := by
    intro j ref x s hx
    by_cases hj : j = i
    · subst hj
      exact hkept ref x s hx
    · rw [hsame j hj]
      exact hx
  have hauth : ∀ {j ref x s}, Authentic P σ j ref x s → Authentic P σ' j ref x s :=
    fun ⟨r, hr, ha⟩ => ⟨r, hr, authored_mono hmono ha⟩
  have hfound : ∀ {j item}, Founded P j (Authentic P σ j) item →
      Founded P j (Authentic P σ' j) item := fun hf op ref he hr => hauth (hf op ref he hr)
  have hheld : ∀ j ref x s, Holds (σ'.queue j) ref x s → Authentic P σ' j ref x s := by
    intro j ref x s hx
    by_cases hj : j = i
    · subst hj
      rcases hgrown ref x s hx with ha | hp
      · exact hauth ha
      · obtain ⟨r, hr⟩ := holds_home hfit.routes hx
        exact ⟨r, hr, j, ref, hr, Or.inr ⟨hp.symm, hx⟩⟩
    · rw [hsame j hj] at hx
      exact hauth (h.authored j ref x s hx)
  refine ⟨fun j => ?_, fun j => ?_, fun j ref x s hx => hmono j ref x s (h.kept j ref x s hx), hheld,
    fun j k item hw => ?_, fun item hi => ?_⟩
  · by_cases hj : j = i
    · exact hj ▸ hfit
    · rw [hsame j hj]
      exact h.fit j
  · by_cases hj : j = i
    · exact hj ▸ hidle
    · rw [hsame j hj]
      exact h.idle j
  · by_cases hj : j = i
    · subst hj
      exact hfound (hwaits k item hw)
    · rw [hsame j hj] at hw
      exact hfound (h.pending j k item hw)
  · rcases hwire item hi with hi | hs
    · exact vouched_mono hmono (h.wire item hi)
    · exact shown_vouched (hheld i) hs

theorem listing_shown {q : SharQueue} {listing : List (PathBuf × List (Identity × CrdtRelation))}
    (h : Fit P i q) (he : Enumerates q.fullState listing) (hi : item ∈ toNetworkOps listing) :
    Shown P i q item := by
  have hentry : ∀ {path y rel}, (∃ l ∈ listing, l.1 = path ∧ (y, rel) ∈ l.2) →
      y ≠ root ∧ ∃ ref, Home P i path ref ∧ Holds q ref y (alive rel) := by
    intro path y rel hl
    obtain ⟨ref, f, hf, hpath, hy, hlook⟩ := (mem_listing he).mp hl
    obtain ⟨r, hr⟩ := holds_home h.routes ⟨f, hf, rel, hlook, rfl⟩
    obtain ⟨g, hg⟩ := home_at h.routes hr
    obtain rfl : g = f := Option.some.inj (hg.file.symm.trans hf)
    have hroot : q.root = (P.loaded i).root := h.routes.dirName
    rw [relative_same h, hg.path, hroot, home_relative] at hpath
    exact ⟨hy, ref, hpath ▸ hr, g, hf, rel, hlook, rfl⟩
  cases item with
  | add op =>
    obtain ⟨l, hl, e, hin, rfl⟩ := mem_toNetworkOps_add.mp hi
    obtain ⟨hy, ref, hr, hh⟩ := hentry ⟨l, hl, rfl, hin⟩
    refine ⟨hy, ref, _, hr, hh, fun op' he' => ?_⟩
    rw [← NetworkOp.add.inj he']
  | remove op =>
    obtain ⟨l, hl, e, hin, _, rfl⟩ := mem_toNetworkOps_remove.mp hi
    obtain ⟨hy, ref, hr, hh⟩ := hentry ⟨l, hl, rfl, hin⟩
    exact ⟨hy, ref, _, hr, hh, by simp⟩

variable [DecidableEq ι] {events : List (Event ι)}

theorem honest_step {e : Event ι} (h : Honest P σ) (hg : Named P σ e) (hs : Transition σ e σ') :
    Honest P σ' := by
  cases hs with
  | @edit i e q he =>
    have hq := edited (h.fit i) (h.idle i) hg he
    refine honest_changed h (Function.update_self i q σ.queue)
      (fun j hj => Function.update_of_ne hj q σ.queue) hq.fit hq.idle hq.kept
      (fun ref x s hx => (hq.grown ref x s hx).imp (h.authored i ref x s) id) (fun k item hw => ?_) ?_
    · rcases hq.waits k item hw with hw | ⟨op, rfl⟩
      · exact h.pending i k item hw
      · exact fun op' _ he' => absurd he' (by simp)
    · rintro item (hi | ⟨j, hi⟩)
      · exact Or.inl (Or.inl hi)
      · by_cases hj : j = i
        · subst hj
          simp only [Function.update_self] at hi
          exact (hq.log item hi).imp (fun hi => Or.inr ⟨j, hi⟩) id
        · simp only [Function.update_of_ne hj] at hi
          exact Or.inl (Or.inr ⟨j, hi⟩)
  | @receive i item q hwire hd =>
    have hstart : Receiving P i (Authentic P σ i) (σ.queue i) (σ.queue i) :=
      ⟨h.fit i, (h.idle i).ide, fun _ _ _ hx => hx, h.authored i, h.pending i,
        by simp [(h.idle i).network], rfl⟩
    obtain ⟨hq, hw⟩ := receiving_delivered hstart (h.idle i).network
      (vouched_founded (h.wire item hwire)) hd
    refine honest_changed h (Function.update_self i q σ.queue)
      (fun j hj => Function.update_of_ne hj q σ.queue) hq.fit ⟨hw, hq.idle⟩ hq.kept
      (fun ref x s hx => Or.inl (hq.within ref x s hx)) hq.waits ?_
    rintro item (hi | ⟨j, hi⟩)
    · exact Or.inl (Or.inl hi)
    · refine Or.inl (Or.inr ⟨j, ?_⟩)
      by_cases hj : j = i
      · subst hj
        simp only [Function.update_self] at hi
        exact hq.log ▸ hi
      · simpa only [Function.update_of_ne hj] using hi
  | @answer j listing he =>
    refine honest_changed h rfl (fun _ _ => rfl) (h.fit j) (h.idle j) (fun _ _ _ hx => hx)
      (fun ref x s hx => Or.inl (h.authored j ref x s hx)) (h.pending j) ?_
    rintro item (hi | hi)
    · exact (List.mem_append.mp hi).imp Or.inl (listing_shown (h.fit j) he)
    · exact Or.inl (Or.inr hi)

theorem run_honest (h : Run Transition (Named P) P.start events σ) : Honest P σ :=
  h.invariant (fun _ _ _ hσ hg hs => honest_step hσ hg hs) (honest_start P)

/-- A character with the id of a peer is nowhere before that peer has it in the same file, and
nothing on the wire speaks of one that it has not. -/
theorem author_holds (h : Run Transition (Named P) P.start events σ) (j : ι)
    (hx : x.2 = (P.loaded j).peer) :
    (∀ i ref f, At (σ.queue i) r ref f → x ∈ f.characters →
      ∃ ref' g, At (σ.queue j) r ref' g ∧ x ∈ g.characters) ∧
    ∀ item, σ.OnWire item → itemPath item = r → subject item = x →
      ∃ ref' g, At (σ.queue j) r ref' g ∧ x ∈ g.characters := by
  have hσ := run_honest h
  have hauth : ∀ {s}, Authored P σ r x s → ∃ ref' g, At (σ.queue j) r ref' g ∧ x ∈ g.characters := by
    intro s ha
    obtain ⟨ref', hj, f, hf, hin⟩ := authored_known hσ ha hx
    obtain ⟨g, hg⟩ := home_at (hσ.fit j).routes hj
    obtain rfl : g = f := Option.some.inj (hg.file.symm.trans hf)
    exact ⟨ref', g, hg, hin⟩
  constructor
  · intro i ref f hf hin
    obtain ⟨rel, hl⟩ := Finmap.mem_iff.mp hin
    obtain ⟨r', hr, ha⟩ := hσ.authored i ref x _ ⟨f, hf.file, rel, hl, rfl⟩
    exact hauth (home_path (at_home (hσ.fit i).routes hf) hr ▸ ha)
  · rintro item hi rfl rfl
    obtain ⟨_, s, ha, _⟩ := hσ.wire item hi
    exact hauth ha

theorem author_holds_pair : ∃ σ, Run Transition (Named pair) pair.start
      [.edit false typeA, .answer false stateA, .receive true opA] σ ∧
    (∃ ref g, At (σ.queue false) [.normal "f"] ref g ∧ (1, 1) ∈ g.characters) ∧
    σ.OnWire opA := by
  obtain ⟨_, σ, _, _, hrun, _, _, h⟩ := pair_run (G := Named pair) typeA_named (fun _ => trivial)
    fun _ => trivial
  have hin : ((1, 1) : Identity) ∈ (noteA "t").characters := by decide
  exact ⟨σ, hrun, (author_holds (P := pair) (j := false) hrun rfl).1 true _ _ h.reader hin,
    Or.inl (h.answered ▸ List.mem_singleton.mpr rfl)⟩

end Session

end PeerAgreement
