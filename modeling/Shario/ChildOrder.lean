import Shario.LandsOnce
import Shario.TextSplices

/-! A burst as it lands: what waits for one parent lands in the order of its processing, so
that every add is a first child, and the file stays in document order. -/
namespace ChildOrder

open CrdtTypes FileTree FileSearch CharacterTree FilePlacement FileSafety FileShape DocumentOrder
  DirectoryTree ShareQueue WorklistDrain TreeCalls QueueSteps NetworkDelivery IdeSteps ExactlyOnce
  NewIdentities QueueRuns Sessions LandsOnce TextSplices

def turn (calls : List IdeAdd) (op : IdeAdd) : ℕ := (calls.map IdeAdd.tag).idxOf op.tag

def InTurn (calls l : List IdeAdd) : Prop := l.Pairwise fun a b => turn calls a < turn calls b

/-- The adds that are to land under `k`: what waits for `k`, the add that is being tried and
the worklist. -/
def queuedFor (q : SharQueue) (hand : Option IdeAdd) (k : Identity) : List IdeAdd :=
  (q.ideBacklog.lookup k).getD [] ++
    (hand.toList ++ q.ideWorklist).filter fun op => decide (q.ideParent op = some k)

structure Lined (q₀ : SharQueue) (ref : FileRef) (calls : List IdeAdd) (hand : Option IdeAdd)
    (q : SharQueue) : Prop where
  file : ∃ f, q.tree.getFile ref = some f ∧ Canonical f
  tagged : ∀ tag l, q.ideTagBacklog.lookup tag = some l → InTurn calls l
  queued : ∀ k, InTurn calls (queuedFor q hand k)
  later : ∀ k op x s, op ∈ queuedFor q hand k → Holds q ref x s → s.parent = k →
    x.1 < (given q₀ (turn calls op)).1

/-- Either the parents of the worklist are all there, or all are the one that is missing. -/
inductive Ready (ref : FileRef) (q : SharQueue) : Prop where
  | serving : (∀ op ∈ q.ideWorklist, ∃ k, q.ideParent op = some k ∧ Known q ref k) → Ready ref q
  | parking (k) : ¬ Known q ref k → (∀ op ∈ q.ideWorklist, q.ideParent op = some k) → Ready ref q

section Files

variable {q q' : SharQueue} {ref : FileRef} {f g : SharFile} {c : CRDT} {o : Outcome}
  {x p : Identity} {op : IdeAdd} {t : SharDirectory}

theorem first_orderly (lineNum : ℕ)
    (h : c.identity ∉ f.characters → c.relation.parent ∈ f.characters →
      FirstChild f.characters c.relation.parent c.identity ∧ Live f.characters c.relation.parent) :
    Orderly f (lineNum, .add c) := by
  intro c' hc hx hp
  cases hc
  obtain ⟨hfirst, hl⟩ := h hx hp
  have hnone : ∀ s, parentOf f.characters s = some c.relation.parent → ¬ sibling s c.identity := by
    intro s hs
    obtain ⟨_, rel, hrel, he⟩ := parentOf_eq_some.mp hs
    exact hfirst s rel hrel he
  split
  · exact ⟨hl, fun s _ hs hsx _ => absurd hsx (hnone s hs)⟩
  · exact ⟨fun s _ hs hsx _ => absurd hsx (hnone s hs), fun ht => absurd hl ht.not_live⟩

theorem first_canonical {l r : List Identity} (hf : Canonical f)
    (hlive : ∀ y, ¬ Tomb f.characters y) (htext : text f = l ++ c.relation.parent :: r)
    (hc : c.identity ∉ f.characters)
    (hfirst : FirstChild f.characters c.relation.parent c.identity)
    (hd : c.relation.deleted = false) : ∃ g, Canonical g ∧ (∀ y, ¬ Tomb g.characters y) ∧
      text g = l ++ c.relation.parent :: c.identity :: r ∧
      g.characters = f.characters.insert c.identity c.relation := by
  obtain ⟨o, g, _, ha⟩ := add_cases hf.toSound c 0
  obtain ⟨_, _, htext', hchars⟩ := first_added hf.toShape htext hc hfirst hd ha
  have hcan := canonical_added 0 hf hd (first_orderly 0 fun _ hp =>
    ⟨hfirst, (live_or_tomb hp).resolve_right (hlive _)⟩) ha
  exact ⟨g, hcan, tombless_added hlive hd ha, htext', hchars⟩

theorem tree_canonical (hlive : ∀ y, ¬ Gone q ref y)
    (hfile : ∃ f, q.tree.getFile ref = some f ∧ Canonical f)
    (hfirst : ∀ y s, Holds q ref y s → s.parent = p → y.1 < x.1)
    (ha : TreeAdded q.tree op.filePath (ideCrdt op x p) o t) :
    ∃ f, t.getFile ref = some f ∧ Canonical f := by
  obtain ⟨f, hf, hcan⟩ := hfile
  cases ha with
  | lost _ => exact ⟨f, hf, hcan⟩
  | @routed ref' f' o g hr hf' ha =>
    by_cases he : ref' = ref
    · subst he
      obtain rfl := Option.some.inj (hf'.symm.trans hf)
      refine ⟨g, SharDirectory.getFile_setFile_self hf', ?_⟩
      refine canonical_added 0 hcan rfl (first_orderly 0 fun _ hp => ⟨?_, ?_⟩) ha
      · intro e rel hrel hpar hs
        have hlt := hfirst e _ ⟨f', hf', rel, hrel, rfl⟩ hpar
        unfold sibling at hs
        change x.1 < e.1 ∨ x.1 = e.1 ∧ e.2 < x.2 at hs
        omega
      · exact (live_or_tomb hp).resolve_right fun ht => hlive _ ⟨f', hf', ht⟩
    · exact ⟨f, by rw [SharDirectory.getFile_setFile_ne (Ne.symm he)]; exact hf, hcan⟩

end Files

section Queue

variable {q q' q₁ : SharQueue} {op : IdeAdd} {x k : Identity} {t : SharDirectory}
  {hand : Option IdeAdd} {calls l l' : List IdeAdd}

theorem mem_queuedFor {o : IdeAdd} : o ∈ queuedFor q hand k ↔
    Waits q.ideBacklog k o ∨ (hand = some o ∨ o ∈ q.ideWorklist) ∧ q.ideParent o = some k := by
  cases hl : q.ideBacklog.lookup k with
  | none => simp [queuedFor, Waits, hl, or_and_right]
  | some l => simp [queuedFor, Waits, hl, or_and_right]

theorem queued_popped (h : q.popIde = some (op, q₁)) :
    queuedFor q₁ (some op) k = queuedFor q none k := by
  obtain ⟨rest, hl, rfl⟩ := popIde_eq h
  simp only [queuedFor, hl]
  rfl

theorem queued_hand (hk : q.ideBacklog.lookup k = none) (h : q.ideParent op = some k) :
    queuedFor q (some op) k = op :: queuedFor q none k := by
  simp [queuedFor, hk, h]

theorem queued_drop : (queuedFor q none k).Sublist (queuedFor q (some op) k) := by
  refine (List.Sublist.refl _).append (List.Sublist.filter _ ?_)
  exact (List.sublist_cons_self op q.ideWorklist)

theorem queued_held (hh : Held q op q') :
    (queuedFor q' none k).Sublist (queuedFor q (some op) k) := by
  cases hh with
  | untagged _ _ => exact queued_drop
  | repeated _ _ _ => exact queued_drop
  | @early x p e t hp _ _ =>
    have hsame : queuedFor (waitingIde (withTree q t) p op) none k = queuedFor q (some op) k := by
      have hpar : ∀ o, (waitingIde (withTree q t) p op).ideParent o = q.ideParent o := fun _ => rfl
      by_cases hk : k = p
      · subst hk
        simp only [queuedFor, hpar]
        simp [waitingIde, withTree, push, hp]
      · have hne : p ≠ k := Ne.symm hk
        simp only [queuedFor, hpar]
        simp [waitingIde, withTree, push, hp, Finmap.lookup_insert_of_ne _ hk, hne]
    rw [hsame]

theorem queued_landed {cb : Callback}
    (hwaits : ∀ k o, Waits q.ideBacklog k o → q.ideParent o = some k)
    (hclear : q.ideBacklog.lookup x = none ∨ ∀ o ∈ q.ideWorklist, q.ideParent o ≠ some x) :
    (queuedFor (((withTree q t).queueIdeBacklog x).fire cb) none k).Sublist
      (queuedFor q none k) := by
  cases hl : q.ideBacklog.lookup x with
  | none =>
    have he : (withTree q t).queueIdeBacklog x = withTree q t := by
      have hl' : (withTree q t).ideBacklog.lookup x = none := hl
      simp [SharQueue.queueIdeBacklog, hl']
    rw [he]
    exact List.Sublist.refl _
  | some l =>
    have hnone := hclear.resolve_left (by simp [hl])
    have he : (withTree q t).queueIdeBacklog x =
        { withTree q t with
          ideBacklog := q.ideBacklog.erase x, ideWorklist := q.ideWorklist ++ l } := by
      have hl' : (withTree q t).ideBacklog.lookup x = some l := hl
      simp only [SharQueue.queueIdeBacklog, hl']
      rfl
    have hlist : ∀ o ∈ l, q.ideParent o = some x := fun o ho => hwaits x o ⟨l, hl, ho⟩
    rw [he]
    change (((q.ideBacklog.erase x).lookup k).getD [] ++ (q.ideWorklist ++ l).filter fun o =>
      decide (q.ideParent o = some k)).Sublist _
    by_cases hk : k = x
    · subst hk
      have hw : (q.ideWorklist.filter fun o => decide (q.ideParent o = some k)) = [] := by
        simpa [List.filter_eq_nil_iff] using hnone
      rw [List.filter_append, hw, queuedFor, hl]
      simp only [Finmap.lookup_erase, Option.getD_none, List.nil_append, Option.getD_some]
      exact List.filter_sublist.trans (List.sublist_append_left _ _)
    · have hw : (l.filter fun o => decide (q.ideParent o = some k)) = [] := by
        refine List.filter_eq_nil_iff.mpr fun o ho => ?_
        simp [hlist o ho, Ne.symm hk]
      rw [List.filter_append, hw, List.append_nil, Finmap.lookup_erase_ne hk]
      exact List.Sublist.refl _

theorem inTurn_sublist (h : InTurn calls l) (hs : l'.Sublist l) : InTurn calls l' :=
  List.Pairwise.sublist hs h

end Queue

section Steps

variable {q₀ q q' q₁ : SharQueue} {ref : FileRef} {calls pre post : List IdeAdd} {op : IdeAdd}
  {x k : Identity} {hand : Option IdeAdd}

theorem turn_at (htags : (calls.map IdeAdd.tag).Nodup) {i : ℕ} (hi : calls[i]? = some op) :
    turn calls op = i := by
  obtain ⟨hlt, rfl⟩ := List.getElem?_eq_some_iff.mp hi
  have hat := htags.idxOf_getElem i (by simpa using hlt)
  rwa [List.getElem_map] at hat

section Held

variable (hb : Burst q₀ ref calls) (he : calls = pre ++ post)
  (ht : Typing q₀ (alone pre) hand q)

include hb he ht

theorem held_turn (ho : HeldIn q hand op) : op ∈ calls ∧ turn calls op < pre.length ∧
    q.tagIdentities.lookup op.tag = some (given q₀ (turn calls op)) := by
  obtain ⟨i, a, ha, rfl, hown, _⟩ := ht.held op ho
  obtain ⟨o, hi, rfl⟩ := alone_get.mp ha
  have hlt := (List.getElem?_eq_some_iff.mp hi).1
  have hin : calls[i]? = some o := by
    rw [he, List.getElem?_append_left hlt]
    exact hi
  have hturn := turn_at hb.tags hin
  exact ⟨List.mem_of_getElem? hin, hturn ▸ hlt, hturn ▸ hown⟩

theorem waits_unknown (hw : Waits q.ideBacklog k op) : ¬ Known q ref k := by
  have hin := (held_turn hb he ht (Or.inr (Or.inr (Or.inr ⟨k, hw⟩)))).1
  exact (ht.waits k op hw).2 ref (hb.routed op hin)

theorem known_idle (hk : Known q ref k) : q.ideBacklog.lookup k = none := by
  by_contra hne
  obtain ⟨l, hl⟩ := Option.ne_none_iff_exists'.mp hne
  obtain ⟨o, ho⟩ := List.exists_mem_of_ne_nil l (ht.tight k l hl)
  exact waits_unknown hb he ht ⟨l, hl, ho⟩ hk

end Held

theorem lands_here (hb : Burst q₀ ref calls) (he : calls = pre ++ post)
    (ht : Typing q₀ (alone pre) (some op) q) {p : Identity} {pos : Position} {t : SharDirectory}
    (hl : Lands q op x p pos t) : Known q ref p ∧ ¬ Known q ref x ∧
      ∀ q' : SharQueue, q'.tree = t → ∀ y s, Holds q' ref y s ↔
        Holds q ref y s ∨ y = x ∧ s = .new op.val p.1 p.2 := by
  obtain ⟨hin, _, _⟩ := held_turn hb he ht (Or.inl rfl)
  obtain ⟨_, _, ref', _, rfl, _, hr, _, hp, hx, hk⟩ := lands_facts ht hl
  obtain rfl : ref = ref' := Option.some.inj ((hb.routed _ hin).symm.trans hr)
  exact ⟨hp, hx, fun q' hq y s => by simpa using (hk q' hq).1 ref y s⟩

theorem lined_file {o : Outcome} {t : SharDirectory} (h : Lined q₀ ref calls (some op) q)
    (hlive : ∀ y, ¬ Gone q ref y) (hx : x = given q₀ (turn calls op))
    (hp : q.ideParent op = some k) (ha : TreeAdded q.tree op.filePath (ideCrdt op x k) o t) :
    ∃ f, t.getFile ref = some f ∧ Canonical f := by
  have hin : op ∈ queuedFor q (some op) k := mem_queuedFor.mpr (Or.inr ⟨Or.inl rfl, hp⟩)
  exact tree_canonical hlive h.file (fun y s hy hs => hx ▸ h.later k op y s hin hy hs) ha

theorem lined_same (h : Lined q₀ ref calls hand q)
    (hfile : ∃ f, q'.tree.getFile ref = some f ∧ Canonical f)
    (htag : ∀ tag l, q'.ideTagBacklog.lookup tag = some l → InTurn calls l)
    (hsub : ∀ k, (queuedFor q' none k).Sublist (queuedFor q hand k)) (hk : SameKnowledge q q') :
    Lined q₀ ref calls none q' :=
  ⟨hfile, htag, fun k => inTurn_sublist (h.queued k) (hsub k),
    fun k op x s ho hx hs => h.later k op x s ((hsub k).subset ho) ((hk.holds ref x s).mp hx) hs⟩

section Retried

variable (hb : Burst q₀ ref calls) (he : calls = pre ++ post)
  (ht : Typing q₀ (alone pre) (some op) q) (h : Lined q₀ ref calls (some op) q)

include hb he ht h

theorem lined_held
    (huntagged : q.ideParent op = none → ∀ tag o, Waits q.ideTagBacklog tag o →
      turn calls o < turn calls op) (hh : Held q op q') : Lined q₀ ref calls none q' := by
  obtain ⟨_, _, hown⟩ := held_turn hb he ht (Or.inl rfl)
  refine lined_same h ?_ ?_ (fun k => queued_held hh) (held_same ht.files hh)
  · cases hh with
    | untagged _ _ => exact h.file
    | repeated hp hx ha =>
      exact lined_file h (ht.live ref) (Option.some.inj (hx.symm.trans hown)) hp ha
    | early hp hx ha =>
      exact lined_file h (ht.live ref) (Option.some.inj (hx.symm.trans hown)) hp ha
  · cases hh with
    | @untagged tag hp _ =>
      intro tag' l hl
      by_cases hne : tag' = tag
      · subst hne
        simp only [waitingTag, push, Finmap.lookup_insert, Option.some.injEq] at hl
        subst hl
        cases hold : q.ideTagBacklog.lookup tag' with
        | none => exact List.pairwise_singleton _ _
        | some l =>
          refine List.pairwise_append.mpr ⟨h.tagged tag' l hold, List.pairwise_singleton _ _, ?_⟩
          intro a ha b hb
          rw [List.mem_singleton.mp hb]
          exact huntagged hp tag' a ⟨l, hold, ha⟩
      · simp only [waitingTag, push, Finmap.lookup_insert_of_ne _ hne] at hl
        exact h.tagged tag' l hl
    | repeated _ _ _ => exact h.tagged
    | early _ _ _ => exact h.tagged

theorem lined_landed {p : Identity} {pos : Position} {t : SharDirectory} {cb : Callback}
    (hclear : q.ideBacklog.lookup x = none ∨ ∀ o ∈ q.ideWorklist, q.ideParent o ≠ some x)
    (hl : Lands q op x p pos t) :
    Lined q₀ ref calls none (((withTree q t).queueIdeBacklog x).fire cb) := by
  obtain ⟨_, _, hown⟩ := held_turn hb he ht (Or.inl rfl)
  have hx : x = given q₀ (turn calls op) := Option.some.inj (hl.tagged.symm.trans hown)
  obtain ⟨hp, _, hk⟩ := lands_here hb he ht hl
  generalize hq : ((withTree q t).queueIdeBacklog x).fire cb = q'
  have htree : q'.tree = t := by
    rw [← hq, fire_tree, queueIde_tree]
    rfl
  have hsub : ∀ k, (queuedFor q' none k).Sublist (queuedFor q none k) := by
    intro k
    rw [← hq]
    exact queued_landed (fun k o hw => (ht.waits k o hw).1) hclear
  refine ⟨htree ▸ lined_file h (ht.live ref) hx hl.resolved hl.added, ?_,
    fun k => inTurn_sublist (h.queued k) ((hsub k).trans queued_drop), fun k o y s ho hy hs => ?_⟩
  · intro tag l hlook
    have hsame : q'.ideTagBacklog = q.ideTagBacklog := by
      rw [← hq]
      exact queueIde_tagBacklog (withTree q t) x
    rw [hsame] at hlook
    exact h.tagged tag l hlook
  · have hold := (hsub k).subset ho
    rcases (hk q' htree y s).mp hy with hy | ⟨rfl, rfl⟩
    · exact h.later k o y s (queued_drop.subset hold) hy hs
    -- The rest of the queue of the parent comes after `op`.
    · subst hs
      have hqueue := h.queued p
      rw [queued_hand (known_idle hb he ht hp) hl.resolved] at hqueue
      have hlt := (List.pairwise_cons.mp hqueue).1 o hold
      rw [hx]
      simp only [given]
      omega

end Retried

theorem ready_held (hfiles : AllFiles Firm q.tree) (h : Ready ref q) (hh : Held q op q') :
    Ready ref q' := by
  have hknown := DeliveryRuns.known_congr (held_same hfiles hh).holds
  have hwork : q'.ideWorklist = q.ideWorklist ∧ ∀ o, q'.ideParent o = q.ideParent o := by
    cases hh with
    | untagged _ _ => exact ⟨rfl, fun _ => rfl⟩
    | repeated _ _ _ => exact ⟨rfl, fun _ => rfl⟩
    | early _ _ _ => exact ⟨rfl, fun _ => rfl⟩
  cases h with
  | serving h =>
    refine .serving fun o ho => ?_
    rw [hwork.1] at ho
    obtain ⟨k, hp, hk⟩ := h o ho
    exact ⟨k, (hwork.2 o).trans hp, (hknown ref k).mpr hk⟩
  | parking k hk h =>
    refine .parking k (fun hin => hk ((hknown ref k).mp hin)) fun o ho => ?_
    rw [hwork.1] at ho
    exact (hwork.2 o).trans (h o ho)

theorem ready_landed (hb : Burst q₀ ref calls) (he : calls = pre ++ post)
    (ht : Typing q₀ (alone pre) (some op) q) {p : Identity} {pos : Position} {t : SharDirectory}
    {cb : Callback} (hl : Lands q op x p pos t)
    (hwork : ∀ o ∈ q.ideWorklist, ∃ k, q.ideParent o = some k ∧ (Known q ref k ∨ k = x)) :
    Ready ref (((withTree q t).queueIdeBacklog x).fire cb) := by
  obtain ⟨_, _, hk⟩ := lands_here hb he ht hl
  generalize hq : ((withTree q t).queueIdeBacklog x).fire cb = q'
  have htree : q'.tree = t := by
    rw [← hq, fire_tree, queueIde_tree]
    rfl
  have htags : q'.tagIdentities = q.tagIdentities := by
    rw [← hq]
    exact queueIde_tags _ _
  have hknown : ∀ k, Known q ref k ∨ k = x → Known q' ref k := by
    intro k hor
    rw [known_iff_holds]
    rcases hor with hkn | rfl
    · obtain ⟨s, hs⟩ := known_iff_holds.mp hkn
      exact ⟨s, (hk q' htree k s).mpr (Or.inl hs)⟩
    · exact ⟨_, (hk q' htree k _).mpr (Or.inr ⟨rfl, rfl⟩)⟩
  refine .serving fun o ho => ?_
  rw [← hq] at ho
  rcases (queueIde_worklist (withTree q t) x o).mp ho with ho | ho
  · obtain ⟨k, hp, hor⟩ := hwork o ho
    exact ⟨k, (ideParent_congr htags o).trans hp, hknown k hor⟩
  · exact ⟨x, (ideParent_congr htags o).trans (ht.waits x o ho).1, hknown x (Or.inr rfl)⟩

end Steps

structure Underway (q₀ : SharQueue) (ref : FileRef) (calls pre : List IdeAdd) (q : SharQueue) :
    Prop where
  typing : Typing q₀ (alone pre) none q
  lined : Lined q₀ ref calls none q
  ready : Ready ref q

section Drains

variable {q₀ q q₁ q₂ : SharQueue} {ref : FileRef} {calls pre post : List IdeAdd} {op : IdeAdd}

theorem lined_popped (h : Lined q₀ ref calls none q) (hpop : q.popIde = some (op, q₁)) :
    Lined q₀ ref calls (some op) q₁ := by
  obtain ⟨rest, _, rfl⟩ := popIde_eq hpop
  refine ⟨h.file, h.tagged, fun k => ?_, fun k o x s ho hx hs => ?_⟩
  · rw [queued_popped hpop]
    exact h.queued k
  · rw [queued_popped hpop] at ho
    exact h.later k o x s ho hx hs

theorem ready_popped (h : Ready ref q) (hpop : q.popIde = some (op, q₁)) :
    Ready ref q₁ ∧ ∃ k, q₁.ideParent op = some k ∧ (Known q₁ ref k →
      ∀ o ∈ q₁.ideWorklist, ∃ k, q₁.ideParent o = some k ∧ Known q₁ ref k) := by
  obtain ⟨rest, hwork, rfl⟩ := popIde_eq hpop
  have hrest : ∀ o ∈ rest, o ∈ q.ideWorklist := by
    intro o ho
    rw [hwork]
    exact List.mem_cons_of_mem _ ho
  have hop : op ∈ q.ideWorklist := by
    rw [hwork]
    simp
  cases h with
  | serving h =>
    obtain ⟨k, hp, _⟩ := h op hop
    exact ⟨.serving fun o ho => h o (hrest o ho), k, hp, fun _ o ho => h o (hrest o ho)⟩
  | parking k hk h =>
    exact ⟨.parking k hk fun o ho => h o (hrest o ho), k, h op hop, fun hin => absurd hin hk⟩

theorem underway_round (hb : Burst q₀ ref calls) (he : calls = pre ++ post)
    (h : Underway q₀ ref calls pre q) (hpop : q.popIde = some (op, q₁)) (hr : RetriedIde q₁ op q₂) :
    Underway q₀ ref calls pre q₂ := by
  have ht := typing_popped h.typing hpop
  have hl := lined_popped h.lined hpop
  obtain ⟨hready, k, hp, hrest⟩ := ready_popped h.ready hpop
  refine ⟨typing_retried ht hr, ?_, ?_⟩
  · cases hr with
    | held hh => exact lined_held hb he ht hl (fun hn => absurd (hn.symm.trans hp) (by simp)) hh
    | @landed x p pos t hland =>
      obtain ⟨hpar, hx, _⟩ := lands_here hb he ht hland
      obtain rfl := Option.some.inj (hp.symm.trans hland.resolved)
      refine lined_landed hb he ht hl (Or.inr fun o ho hox => ?_) hland
      obtain ⟨j, hj, hknown⟩ := hrest hpar o ho
      rw [hox, Option.some.injEq] at hj
      exact hx (hj ▸ hknown)
  · cases hr with
    | held hh => exact ready_held ht.files hready hh
    | @landed x p pos t hland =>
      obtain ⟨hpar, _, _⟩ := lands_here hb he ht hland
      obtain rfl := Option.some.inj (hp.symm.trans hland.resolved)
      refine ready_landed hb he ht hland fun o ho => ?_
      obtain ⟨j, hj, hknown⟩ := hrest hpar o ho
      exact ⟨j, hj, Or.inl hknown⟩

end Drains

theorem enlisted_list (q : SharQueue) (op : IdeAdd) (n : ℕ) : (enlisted q op n).ideWorklist =
    q.ideWorklist ++ (q.ideTagBacklog.lookup op.tag).getD [] := by
  unfold enlisted SharQueue.queueTagBacklog
  have hsame : (q.confirmIde op.tag n).ideTagBacklog = q.ideTagBacklog := rfl
  rw [hsame]
  cases q.ideTagBacklog.lookup op.tag with
  | none => exact (List.append_nil _).symm
  | some l => rfl

theorem enlisted_tagList {q : SharQueue} {op : IdeAdd} {n tag : ℕ} {l : List IdeAdd}
    (h : (enlisted q op n).ideTagBacklog.lookup tag = some l) :
    q.ideTagBacklog.lookup tag = some l := by
  unfold enlisted SharQueue.queueTagBacklog at h
  split at h
  · have h' : (q.ideTagBacklog.erase op.tag).lookup tag = some l := h
    by_cases ht : tag = op.tag
    · rw [ht, Finmap.lookup_erase] at h'
      exact absurd h' (by simp)
    · rwa [Finmap.lookup_erase_ne ht] at h'
  · exact h

section Received

variable {q₀ p : SharQueue} {calls pre post : List IdeAdd} {ref : FileRef} {op : IdeAdd} {n : ℕ}
  {dirPath : PathBuf} {read : Except String (List FsEntry)} {peer : ℕ}
  (hl : SharQueue.new dirPath read peer = some (.ok q₀)) (h : Burst q₀ ref calls)
  (he : calls = pre ++ op :: post) (hp : Landing q₀ pre p) (hn : tick p.counter = some n)

include hl hp

theorem landing_bound {x : Identity} (hx : Known p ref x) : x.1 ≤ q₀.counter + pre.length := by
  obtain ⟨s, hs⟩ := known_iff_holds.mp hx
  rcases hp.typing.sourced ref x s hs with h₀ | ⟨i, a, _, ha, rfl, _⟩
  · have hle := known_le hl (known_iff_holds.mpr ⟨s, h₀⟩)
    omega
  · have hlt := index_lt ha
    rw [alone_length] at hlt
    simp only [given]
    omega

omit hl in
include h he hn in
theorem received_parents :
    (∀ o ∈ (enlisted p op n).ideWorklist,
      (enlisted p op n).ideParent o = some (given q₀ pre.length)) ∧
    (enlisted p op n).ideParent op ≠ some (given q₀ pre.length) := by
  have hgiven : (n, p.peer) = given q₀ pre.length := by
    rw [given_next hp.typing hn, alone_length]
  constructor
  · intro o ho
    rw [enlisted_worklist, hp.idle] at ho
    obtain ⟨htag, _⟩ := hp.typing.tagWaits op.tag o (ho.resolve_left (by simp))
    rw [(meant_of_tagOf q₀ (enlisted p op n) [] ⟨0, o⟩ htag).2, enlisted_tags,
      Finmap.lookup_insert, hgiven]
  · rw [received_parent hp.typing (burst_distinct h he) (burst_clear h he hp) hn]
    intro hself
    have hall : alone calls = alone pre ++ [⟨0, op⟩] ++ alone post := by
      rw [he]
      simp [alone]
    refine h.acyclic pre.length (.single ⟨op, by simp [he], ?_⟩)
    rw [resolved, hall]
    exact meant_append (alone post) hself

include h he hn in
theorem lined_received (hlined : Lined q₀ ref calls none p) :
    Lined q₀ ref calls (some op) (enlisted p op n) ∧ Ready ref (enlisted p op n) := by
  have hgiven : (n, p.peer) = given q₀ pre.length := by
    rw [given_next hp.typing hn, alone_length]
  obtain ⟨hwoken, hself⟩ := received_parents h he hp hn
  have hturn : turn calls op = pre.length := turn_at h.tags (by simp [he])
  have hfresh := burst_fresh hl h he hp
  have hholds : ∀ y s, Holds (enlisted p op n) ref y s ↔ Holds p ref y s := by
    intro y s
    simp only [Holds, enlisted_tree]
  have hnew : ¬ Known p ref (given q₀ pre.length) := by
    intro hk
    have hle := landing_bound hl hp hk
    simp only [given] at hle
    omega
  have hbacklog : ∀ k, queuedFor p none k = (p.ideBacklog.lookup k).getD [] := by
    intro k
    simp [queuedFor, hp.idle]
  refine ⟨⟨?_, fun tag l hlook => ?_, fun k => ?_, fun k o x s ho hx hs => ?_⟩, ?_⟩
  · rw [enlisted_tree]
    exact hlined.file
  · exact hlined.tagged tag l (enlisted_tagList hlook)
  · simp only [queuedFor, enlisted_backlog, Option.toList_some, List.singleton_append]
    by_cases hk : k = given q₀ pre.length
    · subst hk
      rw [hfresh, List.filter_cons_of_neg (by simpa using hself), enlisted_list, hp.idle]
      refine inTurn_sublist ?_ List.filter_sublist
      cases hlook : p.ideTagBacklog.lookup op.tag with
      | none => exact List.Pairwise.nil
      | some l => exact hlined.tagged _ l hlook
    · have hrest : ((enlisted p op n).ideWorklist.filter fun o =>
          decide ((enlisted p op n).ideParent o = some k)) = [] := by
        refine List.filter_eq_nil_iff.mpr fun o ho => ?_
        simp [hwoken o ho, Ne.symm hk]
      rw [List.filter_cons, hrest, ← hbacklog]
      refine List.pairwise_append.mpr ⟨hlined.queued k, ?_, fun a ha b hb => ?_⟩
      · split
        · exact List.pairwise_singleton _ _
        · exact List.Pairwise.nil
      · have hwait : Waits p.ideBacklog k a := by
          have hin := mem_queuedFor.mp ha
          simpa [hp.idle] using hin
        obtain ⟨_, hlt, _⟩ := held_turn h he hp.typing (Or.inr (Or.inr (Or.inr ⟨k, hwait⟩)))
        have hop : b = op := by
          split at hb
          · exact List.mem_singleton.mp hb
          · simp at hb
        rw [hop, hturn]
        exact hlt
  · rw [hholds] at hx
    rcases mem_queuedFor.mp ho with hw | ⟨heq | hin, hpar⟩
    · rw [enlisted_backlog] at hw
      exact hlined.later k o x s (mem_queuedFor.mpr (Or.inl hw)) hx hs
    · rw [Option.some.injEq] at heq
      have hle := landing_bound hl hp (known_iff_holds.mpr ⟨s, hx⟩)
      rw [← heq, hturn]
      simp only [given]
      omega
    · rw [hwoken o hin, Option.some.injEq] at hpar
      obtain ⟨f, hf, hcan⟩ := hlined.file
      obtain ⟨f', hf', rel, hrel, rfl⟩ := hx
      obtain rfl := Option.some.inj (hf.symm.trans hf')
      have hmem : rel.parent ∈ f.characters := hcan.rooted.parent_mem hrel
      have hk : rel.parent = k := hs
      exact absurd ⟨f, hf, hpar ▸ hk ▸ hmem⟩ hnew
  · refine .parking _ (fun hk => hnew ?_) hwoken
    simpa only [Known, enlisted_tree] using hk

include h he hn in
theorem lined_call (hlined : Lined q₀ ref calls none p) {p' : SharQueue}
    (hcall : p.addIdeOperation op = some p') : Lined q₀ ref calls none p' := by
  have hgiven : (n, p.peer) = given q₀ pre.length := by
    rw [given_next hp.typing hn, alone_length]
  have he' : calls = (pre ++ [op]) ++ post := by simp [he]
  have hrec := typing_received hp.typing (burst_distinct h he) (burst_clear h he hp) hn hp.idle
  rw [← alone_snoc] at hrec
  obtain ⟨hop, hready⟩ := lined_received hl h he hp hn hlined
  have hturn : turn calls op = pre.length := turn_at h.tags (by simp [he])
  have hsound : ∀ s, Underway q₀ ref calls (pre ++ [op]) s → AllFiles Sound s.tree :=
    fun s hs => typing_sound hs.typing
  have hown : ∀ {x parent pos t}, Lands (enlisted p op n) op x parent pos t →
      x = given q₀ pre.length := by
    intro x parent pos t hland
    have htagged := hland.tagged
    rw [enlisted_tags, Finmap.lookup_insert, hgiven] at htagged
    exact (Option.some.inj htagged).symm
  have hfirst : ∀ p₁, RetriedIde (enlisted p op n) op p₁ →
      Underway q₀ ref calls (pre ++ [op]) p₁ := by
    intro p₁ hr
    have ht := typing_retried hrec hr
    cases hr with
    | held hh =>
      refine ⟨ht, lined_held h he' hrec hop (fun _ tag o hw => ?_) hh,
        ready_held hrec.files hready hh⟩
      rw [enlisted_tagWaits] at hw
      obtain ⟨_, hlt, _⟩ := held_turn h he hp.typing (Or.inr (Or.inr (Or.inl ⟨tag, hw.1⟩)))
      exact hturn.symm ▸ hlt
    | @landed x parent pos t hland =>
      obtain rfl := hown hland
      refine ⟨ht, lined_landed h he' hrec hop (Or.inl ?_) hland, ready_landed h he' hrec hland
        fun o ho => ⟨_, (received_parents h he hp hn).1 o ho, Or.inr rfl⟩⟩
      rw [enlisted_backlog]
      exact burst_fresh hl h he hp
  rw [addIde_eq (typing_sound hp.typing) hn (hgiven ▸ burst_fresh hl h he hp)] at hcall
  obtain ⟨p₁, hp₁, hdrain⟩ := Option.bind_eq_some_iff.mp hcall
  rcases retryIde_cases (typing_sound hrec) op with ⟨p₂, hp₂, hr⟩ | ⟨hnone, _⟩
  · rw [hp₁, Option.some.injEq] at hp₂
    subst hp₂
    exact (drainIde_keeps hsound (fun s item s₁ s₂ hs _ hpop hr => underway_round h he' hs hpop hr)
      (hfirst p₁ hr) hdrain).1.lined
  · rw [hp₁] at hnone
    exact absurd hnone (by simp)

end Received

section Runs

variable {q₀ q : SharQueue} {calls : List IdeAdd} {ref : FileRef} {f₀ : SharFile}
  {dirPath : PathBuf} {read : Except String (List FsEntry)} {peer : ℕ}

theorem loaded_lined (hl : SharQueue.new dirPath read peer = some (.ok q₀))
    (hf : q₀.tree.getFile ref = some f₀) : Lined q₀ ref calls none q₀ := by
  obtain ⟨_, _, hq⟩ := PathRouting.new_tree hl
  have hempty : ∀ k, queuedFor q₀ none k = [] := by
    intro k
    rw [hq]
    rfl
  refine ⟨⟨f₀, hf, (DeliveryRuns.loaded_files hl ref f₀ hf).toCanonical⟩, ?_, fun k => ?_, ?_⟩
  · intro tag l hlook
    rw [hq] at hlook
    exact absurd hlook (by simp)
  · rw [hempty]
    exact List.Pairwise.nil
  · intro k op x s ho
    rw [hempty] at ho
    exact absurd ho (by simp)

theorem burst_lined (hl : SharQueue.new dirPath read peer = some (.ok q₀)) (h : Burst q₀ ref calls)
    (hf : q₀.tree.getFile ref = some f₀) (hroom : q₀.counter + calls.length < 2 ^ 32)
    {pre : List IdeAdd} : ∀ {post : List IdeAdd} {p : SharQueue}, calls = pre ++ post →
      pre.foldlM SharQueue.addIdeOperation q₀ = some p → Lined q₀ ref calls none p := by
  induction pre using List.reverseRecOn with
  | nil =>
    intro post p _ hp
    cases hp
    exact loaded_lined hl hf
  | append_singleton pre op ih =>
    intro post p' he hp'
    rw [List.append_assoc, List.singleton_append] at he
    obtain ⟨p, hp, hland⟩ := burst_run hl h hroom he
    have hcall : p.addIdeOperation op = some p' := by
      simpa [List.foldlM_append, hp] using hp'
    have hlen : pre.length < calls.length := by
      rw [he, List.length_append, List.length_cons]
      omega
    have hn : tick p.counter = some (p.counter + 1) := by
      rw [tick_eq_some, hland.typing.counter, alone_length]
      omega
    exact lined_call hl h he hland hn (ih he hp) hcall

/-- A burst leaves its file in document order. -/
theorem burst_canonical (hl : SharQueue.new dirPath read peer = some (.ok q₀))
    (h : Burst q₀ ref calls) (hf : q₀.tree.getFile ref = some f₀)
    (hroom : q₀.counter + calls.length < 2 ^ 32) :
    ∃ q f, calls.foldlM SharQueue.addIdeOperation q₀ = some q ∧ LandedOnce q₀ ref calls q ∧
      q.tree.getFile ref = some f ∧ Canonical f := by
  obtain ⟨q, hq, hland⟩ := (lands_once hl h hroom).1
  obtain ⟨f, hf', hcan⟩ := (burst_lined hl h hf hroom (List.append_nil calls).symm hq).file
  exact ⟨q, f, hq, hland, hf', hcan⟩

end Runs

end ChildOrder
