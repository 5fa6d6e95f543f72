import Shario.NetworkDelivery
import Shario.PathRouting

/-! Runs of network operations that arrive in any order and any number of times: every
one of them is applied once, in an order that respects what it depends on. -/
namespace DeliveryRuns

open CrdtTypes FileTree CharacterTree FilePlacement FileSafety Convergence DirectoryTree ShareQueue
  WorklistDrain TreeCalls QueueSteps NetworkDelivery

section Offers

variable (q₀ : SharQueue) (calls : List NetworkOp)

/-- An add of `x` with the relation `s` to the file `ref` is among the calls. -/
def Offers (ref : FileRef) (x : Identity) (s : CrdtRelation) : Prop :=
  ∃ op, .add op ∈ calls ∧ route q₀ (.add op) = some ref ∧ op.crdt.identity = x ∧
    op.crdt.relation = s

def Removes (ref : FileRef) (x : Identity) : Prop :=
  ∃ op, .remove op ∈ calls ∧ route q₀ (.remove op) = some ref ∧ op.identity = x

/-- The parents of `x` among the calls end in a character that is there from the start. -/
inductive Grounded (ref : FileRef) : Identity → Prop where
  | known {x} : Known q₀ ref x → Grounded ref x
  | offered {x s} : Offers q₀ calls ref x s → Grounded ref s.parent → Grounded ref x

/-- Operations that can all be applied in the end. -/
structure Deliverable : Prop where
  absolute : isAbsolute q₀.root = true
  routed : ∀ i ∈ calls, ∃ ref, route q₀ i = some ref
  subjects : ∀ i ∈ calls, subject i ≠ root
  live : ∀ a, .add a ∈ calls → a.crdt.relation.deleted = false
  consistent : ∀ ref x s s', Offers q₀ calls ref x s →
    Holds q₀ ref x s' ∨ Offers q₀ calls ref x s' → s' = s
  grounded : ∀ i ∈ calls, ∀ ref, route q₀ i = some ref → Grounded q₀ calls ref (key i)

/-- `item` is one of the calls, under its own path or the local one. -/
def Listed (item : NetworkOp) : Prop := ∃ j ∈ calls, localItem q₀ item = localItem q₀ j

end Offers

section Paths

variable {q₀ q : SharQueue} {i j : NetworkOp}

theorem toLocalPath_twice (h : isAbsolute q.root = true) (path : PathBuf) :
    q.toLocalPath (q.toLocalPath path) = q.toLocalPath path := by
  have habs : isAbsolute (q.toLocalPath path) = true := by
    unfold SharQueue.toLocalPath joinPath
    generalize q.root = base at h
    split
    · rename_i hor
      rcases Bool.or_eq_true_iff.mp hor with hp | hb
      · exact hp
      · rw [List.isEmpty_iff.mp hb] at h
        exact absurd h (by simp [isAbsolute])
    · cases base with
      | nil => exact absurd h (by simp [isAbsolute])
      | cons c base => cases c <;> simp_all [isAbsolute]
  conv_lhs => rw [SharQueue.toLocalPath]
  simp [joinPath, habs]

theorem localItem_twice (h : isAbsolute q.root = true) (i : NetworkOp) :
    localItem q (localItem q i) = localItem q i := by
  cases i <;> simp [localItem, localAdd, localRemove, toLocalPath_twice h]

theorem local_facts (h : localItem q₀ i = localItem q₀ j) :
    route q₀ i = route q₀ j ∧ subject i = subject j ∧ key i = key j ∧ fileOp i = fileOp j := by
  cases i <;> cases j <;>
    simp_all [localItem, localAdd, localRemove, route, subject, key, fileOp, Remove.identity]

theorem done_congr (h : localItem q₀ i = localItem q₀ j) {ref : FileRef} :
    Done q ref i ↔ Done q ref j := by
  cases i <;> cases j <;> simp_all [localItem, localAdd, localRemove, Done, Remove.identity]

theorem local_same (h : SameRoutes q₀.tree q.tree) (i : NetworkOp) :
    localItem q i = localItem q₀ i ∧ route q i = route q₀ i := by
  have hroot : ∀ path, q.toLocalPath path = q₀.toLocalPath path := by
    intro path
    rw [SharQueue.toLocalPath, SharQueue.toLocalPath, SharQueue.root, SharQueue.root, h.dirName]
  cases i <;> simp [localItem, localAdd, localRemove, route, hroot, h.findFile]

end Paths

def shownAdd (t : SharDirectory) : Callback → Option (FileRef × Identity)
  | .networkAdd op => (t.findFile op.filePath).map (·, op.crdt.identity)
  | _ => none

def shownRemove (t : SharDirectory) : Callback → Option (FileRef × Identity)
  | .networkRemove op => (t.findFile op.filePath).map (·, op.identity)
  | _ => none

/-- What the files and the log of `q` say about the calls that have been applied. -/
structure Applied (q₀ : SharQueue) (calls : List NetworkOp) (q : SharQueue) : Prop where
  kept : ∀ ref x s, Holds q₀ ref x s → Holds q ref x s
  sourced : ∀ ref x s, Holds q ref x s → Holds q₀ ref x s ∨ Offers q₀ calls ref x s
  gone_kept : ∀ ref x, Gone q₀ ref x → Gone q ref x
  gone_sourced : ∀ ref x, Gone q ref x → Gone q₀ ref x ∨ Removes q₀ calls ref x
  adds_once : (q.fired.filterMap (shownAdd q₀.tree)).Nodup
  adds_shown : ∀ ref x, (ref, x) ∈ q.fired.filterMap (shownAdd q₀.tree) ↔
    Known q ref x ∧ ¬ Known q₀ ref x
  parents_first : ∀ l r ref x s, q.fired.filterMap (shownAdd q₀.tree) = l ++ (ref, x) :: r →
    Holds q ref x s → Known q₀ ref s.parent ∨ (ref, s.parent) ∈ l
  removes_once : (q.fired.filterMap (shownRemove q₀.tree)).Nodup
  removes_shown : ∀ ref x, (ref, x) ∈ q.fired.filterMap (shownRemove q₀.tree) ↔
    Gone q ref x ∧ ¬ Gone q₀ ref x

section Applied

variable {q₀ q q' : SharQueue} {calls : List NetworkOp} {ref : FileRef} {x : Identity}

theorem known_congr (h : ∀ ref x s, Holds q' ref x s ↔ Holds q ref x s) (ref : FileRef)
    (x : Identity) : Known q' ref x ↔ Known q ref x := by
  simp only [known_iff_holds, h]

theorem applied_same (h : Applied q₀ calls q) (hk : SameKnowledge q q')
    (hf : q'.fired = q.fired) : Applied q₀ calls q' := by
  obtain ⟨hholds, hgone⟩ := hk
  refine ⟨fun r y s hy => (hholds r y s).mpr (h.kept r y s hy),
    fun r y s hy => h.sourced r y s ((hholds r y s).mp hy),
    fun r y hy => (hgone r y).mpr (h.gone_kept r y hy),
    fun r y hy => h.gone_sourced r y ((hgone r y).mp hy), ?_, ?_, ?_, ?_, ?_⟩
  · rw [hf]
    exact h.adds_once
  · intro r y
    rw [hf, h.adds_shown, known_congr hholds]
  · intro l m r y s hl hy
    exact h.parents_first l m r y s (hf ▸ hl) ((hholds r y s).mp hy)
  · rw [hf]
    exact h.removes_once
  · intro r y
    rw [hf, h.removes_shown, hgone]

theorem applied_landed {rel : CrdtRelation} {c : Callback} (h : Applied q₀ calls q)
    (hp : Known q ref rel.parent) (hx : ¬ Known q ref x) (hoff : Offers q₀ calls ref x rel)
    (hholds : ∀ r y s, Holds q' r y s ↔ Holds q r y s ∨ r = ref ∧ y = x ∧ s = rel)
    (hgone : ∀ r y, Gone q' r y ↔ Gone q r y)
    (hf : q'.fired = q.fired ++ [c]) (hadd : shownAdd q₀.tree c = some (ref, x))
    (hrem : shownRemove q₀.tree c = none) : Applied q₀ calls q' := by
  have hknown : ∀ r y, Known q' r y ↔ Known q r y ∨ r = ref ∧ y = x := by
    intro r y
    simp only [known_iff_holds, hholds, exists_or, exists_and_left, exists_eq, and_true]
  have hx₀ : ¬ Known q₀ ref x := by
    intro hk
    obtain ⟨s, hs⟩ := known_iff_holds.mp hk
    exact hx (known_iff_holds.mpr ⟨s, h.kept ref x s hs⟩)
  have hnew : (ref, x) ∉ q.fired.filterMap (shownAdd q₀.tree) :=
    fun hin => hx ((h.adds_shown ref x).mp hin).1
  have hshown : q'.fired.filterMap (shownAdd q₀.tree) =
      q.fired.filterMap (shownAdd q₀.tree) ++ [(ref, x)] := by
    rw [hf, List.filterMap_append]
    simp [hadd]
  have hremoved : q'.fired.filterMap (shownRemove q₀.tree) =
      q.fired.filterMap (shownRemove q₀.tree) := by
    rw [hf, List.filterMap_append]
    simp [hrem]
  refine ⟨fun r y s hy => (hholds r y s).mpr (Or.inl (h.kept r y s hy)), ?_,
    fun r y hy => (hgone r y).mpr (h.gone_kept r y hy),
    fun r y hy => h.gone_sourced r y ((hgone r y).mp hy), ?_, ?_, ?_, ?_, ?_⟩
  · intro r y s hy
    rcases (hholds r y s).mp hy with hy | ⟨rfl, rfl, rfl⟩
    · exact h.sourced r y s hy
    · exact Or.inr hoff
  · rw [hshown]
    exact List.nodup_append.mpr ⟨h.adds_once, by simp, fun a ha b hb => by
      rw [List.mem_singleton.mp hb]
      exact fun he => hnew (he ▸ ha)⟩
  · intro r y
    rw [hshown, List.mem_append, h.adds_shown, hknown, List.mem_singleton, Prod.mk.injEq]
    constructor
    · rintro (⟨hy, hn⟩ | ⟨rfl, rfl⟩)
      · exact ⟨Or.inl hy, hn⟩
      · exact ⟨Or.inr ⟨rfl, rfl⟩, hx₀⟩
    · rintro ⟨hy | hy, hn⟩
      · exact Or.inl ⟨hy, hn⟩
      · exact Or.inr hy
  · intro l m r y s hl hy
    rw [hshown] at hl
    rcases List.eq_nil_or_concat m with rfl | ⟨m, z, rfl⟩
    · obtain ⟨rfl, he⟩ := List.append_inj' hl rfl
      rw [List.cons.injEq, Prod.mk.injEq] at he
      obtain ⟨⟨rfl, rfl⟩, _⟩ := he
      rcases (hholds _ _ s).mp hy with hy | ⟨_, _, rfl⟩
      · exact absurd (known_iff_holds.mpr ⟨s, hy⟩) hx
      · exact (em _).imp id fun hp₀ => (h.adds_shown _ _).mpr ⟨hp, hp₀⟩
    · rw [List.concat_eq_append, ← List.cons_append, ← List.append_assoc] at hl
      have hold := List.append_inj_left' hl rfl
      rcases (hholds r y s).mp hy with hy | ⟨rfl, rfl, rfl⟩
      · exact h.parents_first l m r y s hold hy
      · rw [hold] at hnew
        exact absurd (by simp) hnew
  · rw [hremoved]
    exact h.removes_once
  · intro r y
    rw [hremoved, h.removes_shown, hgone]

theorem applied_fallen {c : Callback} (h : Applied q₀ calls q) (hx : ¬ Gone q ref x)
    (hrm : Removes q₀ calls ref x) (hholds : ∀ r y s, Holds q' r y s ↔ Holds q r y s)
    (hgone : ∀ r y, Gone q' r y ↔ Gone q r y ∨ r = ref ∧ y = x)
    (hf : q'.fired = q.fired ++ [c]) (hadd : shownAdd q₀.tree c = none)
    (hrem : shownRemove q₀.tree c = some (ref, x)) : Applied q₀ calls q' := by
  have hx₀ : ¬ Gone q₀ ref x := fun hg => hx (h.gone_kept ref x hg)
  have hnew : (ref, x) ∉ q.fired.filterMap (shownRemove q₀.tree) :=
    fun hin => hx ((h.removes_shown ref x).mp hin).1
  have hshown : q'.fired.filterMap (shownAdd q₀.tree) =
      q.fired.filterMap (shownAdd q₀.tree) := by
    rw [hf, List.filterMap_append]
    simp [hadd]
  have hremoved : q'.fired.filterMap (shownRemove q₀.tree) =
      q.fired.filterMap (shownRemove q₀.tree) ++ [(ref, x)] := by
    rw [hf, List.filterMap_append]
    simp [hrem]
  refine ⟨fun r y s hy => (hholds r y s).mpr (h.kept r y s hy),
    fun r y s hy => h.sourced r y s ((hholds r y s).mp hy),
    fun r y hy => (hgone r y).mpr (Or.inl (h.gone_kept r y hy)), ?_, ?_, ?_, ?_, ?_, ?_⟩
  · intro r y hy
    rcases (hgone r y).mp hy with hy | ⟨rfl, rfl⟩
    · exact h.gone_sourced r y hy
    · exact Or.inr hrm
  · rw [hshown]
    exact h.adds_once
  · intro r y
    rw [hshown, h.adds_shown, known_congr hholds]
  · intro l m r y s hl hy
    rw [hshown] at hl
    exact h.parents_first l m r y s hl ((hholds r y s).mp hy)
  · rw [hremoved]
    exact List.nodup_append.mpr ⟨h.removes_once, by simp, fun a ha b hb => by
      rw [List.mem_singleton.mp hb]
      exact fun he => hnew (he ▸ ha)⟩
  · intro r y
    rw [hremoved, List.mem_append, h.removes_shown, hgone, List.mem_singleton, Prod.mk.injEq]
    constructor
    · rintro (⟨hy, hn⟩ | ⟨rfl, rfl⟩)
      · exact ⟨Or.inl hy, hn⟩
      · exact ⟨Or.inr ⟨rfl, rfl⟩, hx₀⟩
    · rintro ⟨hy | hy, hn⟩
      · exact Or.inl ⟨hy, hn⟩
      · exact Or.inr hy

end Applied

/-- Between the retries, once the calls `handed` have come in. -/
structure Delivering (P : SharFile → Prop) (q₀ : SharQueue) (calls handed : List NetworkOp)
    (q : SharQueue) : Prop where
  routes : SameRoutes q₀.tree q.tree
  files : AllFiles P q.tree
  tight : Tight q.networkBacklog
  waits : ∀ k i, Waits q.networkBacklog k i → Listed q₀ calls i ∧ key i = k ∧
    ∀ ref, route q₀ i = some ref → ¬ Known q ref k
  listed : ∀ i ∈ q.networkWorklist, Listed q₀ calls i
  accounted : ∀ j ∈ handed, (∀ ref, route q₀ j = some ref → Done q ref j) ∨
    Waits q.networkBacklog (key j) (localItem q₀ j) ∨
    ∃ i ∈ q.networkWorklist, localItem q₀ i = localItem q₀ j
  applied : Applied q₀ calls q

section Steps

variable {P : SharFile → Prop} {G : SharFile → FileOp → Prop} {q₀ q q' : SharQueue}
  {calls handed : List NetworkOp} {ref : FileRef} {item : NetworkOp}

theorem retried_effect (hrule : FileRule P G) (hP : AllFiles P q.tree)
    (hroute : route q item = some ref) (hne : subject item ≠ root)
    (hG : ∀ f, q.tree.getFile ref = some f → G f (fileOp item)) (h : Retried q item q') :
    Effect q ref item q' := by
  cases item with
  | add op => exact add_effect hrule hP hroute hG hne h
  | remove op => exact remove_effect hrule hP hroute hG hne h

theorem retried_tree (h : Retried q item q') :
    SameRoutes q.tree q'.tree := by
  cases h with
  | rootAdd _ => exact sameRoutes_refl _
  | landed _ h => rw [queueNetwork_tree]; exact h.routes
  | repeated _ h => exact h.routes
  | early _ h => exact h.routes
  | rootRemove _ => exact sameRoutes_refl _
  | fallen _ h => exact h.routes
  | again _ h => exact h.routes
  | earlyRemove _ h => exact h.routes

theorem retried_files (hrule : FileRule P G) (hP : AllFiles P q.tree)
    (hroute : route q item = some ref) (hne : subject item ≠ root)
    (hG : ∀ f, q.tree.getFile ref = some f → G f (fileOp item)) (h : Retried q item q') :
    AllFiles P q'.tree := by
  have hadd : ∀ {op o t}, item = .add op → TreeAdded q.tree (localAdd q op).filePath op.crdt o t →
      AllFiles P t := by
    rintro op o t rfl ht
    refine ht.allFiles hP fun r f g hr hf hp ha => hrule.add f _ _ g hp ?_ ha
    have he : some r = some ref := hr.symm.trans hroute
    rw [Option.some.injEq] at he
    exact hG f (he ▸ hf)
  have hremove : ∀ {op o t}, item = .remove op →
      TreeRemoved q.tree (localRemove q op).filePath op.identity o t → AllFiles P t := by
    rintro op o t rfl ht
    refine ht.allFiles hP fun r f g hr hf hp ha => hrule.remove f _ _ g hp hne ?_ ha
    have he : some r = some ref := hr.symm.trans hroute
    rw [Option.some.injEq] at he
    exact hG f (he ▸ hf)
  cases h with
  | rootAdd _ => exact hP
  | landed _ h => rw [queueNetwork_tree]; exact hadd rfl h
  | repeated _ h => exact hadd rfl h
  | early _ h => exact hadd rfl h
  | rootRemove _ => exact hP
  | fallen _ h => exact hremove rfl h
  | again _ h => exact hremove rfl h
  | earlyRemove _ h => exact hremove rfl h

theorem offers_of_listed {op : NetworkAdd} (hi : Listed q₀ calls (.add op))
    (hr : route q₀ (.add op) = some ref) :
    Offers q₀ calls ref op.crdt.identity op.crdt.relation := by
  obtain ⟨j, hj, he⟩ := hi
  cases j with
  | add op' =>
    obtain ⟨hroute, _, _, hop⟩ := local_facts he
    simp only [fileOp, FileOp.add.injEq] at hop
    exact ⟨op', hj, hroute ▸ hr, by rw [hop], by rw [hop]⟩
  | remove op' => simp [localItem] at he

theorem removes_of_listed {op : Remove} (hi : Listed q₀ calls (.remove op))
    (hr : route q₀ (.remove op) = some ref) : Removes q₀ calls ref op.identity := by
  obtain ⟨j, hj, he⟩ := hi
  cases j with
  | add op' => simp [localItem] at he
  | remove op' =>
    obtain ⟨hroute, _, _, hop⟩ := local_facts he
    simp only [fileOp, FileOp.remove.injEq] at hop
    exact ⟨op', hj, hroute ▸ hr, by rw [hop]⟩

theorem pop_facts {p p₁ : SharQueue} (h : p.popNetwork = some (item, p₁)) :
    p.networkWorklist = item :: p₁.networkWorklist ∧ p₁.tree = p.tree ∧
      p₁.networkBacklog = p.networkBacklog ∧ p₁.fired = p.fired := by
  obtain ⟨rest, hl, rfl⟩ := pop_eq h
  exact ⟨hl, rfl, rfl, rfl⟩

theorem sameKnowledge_tree (h : q'.tree = q.tree) : SameKnowledge q q' := by
  constructor <;> intros <;> simp only [Holds, Gone, h]

theorem sameKnowledge_done (h : SameKnowledge q q') {j : NetworkOp} :
    Done q' ref j ↔ Done q ref j := by
  cases j with
  | add op => exact known_congr h.holds _ _
  | remove op => exact h.gone _ _

/-- The popped item is done or waits; everything else is where it was or has been woken. -/
theorem accounted_step {p p₂ : SharQueue} (item : NetworkOp)
    (h : ∀ j ∈ handed, (∀ ref, route q₀ j = some ref → Done p ref j) ∨
      Waits p.networkBacklog (key j) (localItem q₀ j) ∨
      ∃ i ∈ p.networkWorklist, localItem q₀ i = localItem q₀ j)
    (habs : isAbsolute q₀.root = true) (hdone : ∀ ref j, Done p ref j → Done p₂ ref j)
    (hwaits : ∀ k i, Waits p.networkBacklog k i →
      Waits p₂.networkBacklog k i ∨ i ∈ p₂.networkWorklist)
    (hwork : ∀ i ∈ p.networkWorklist, i = item ∨ i ∈ p₂.networkWorklist)
    (hitem : (∀ ref, route q₀ item = some ref → Done p₂ ref item) ∨
      Waits p₂.networkBacklog (key item) (localItem q₀ item)) :
    ∀ j ∈ handed, (∀ ref, route q₀ j = some ref → Done p₂ ref j) ∨
      Waits p₂.networkBacklog (key j) (localItem q₀ j) ∨
      ∃ i ∈ p₂.networkWorklist, localItem q₀ i = localItem q₀ j := by
  intro j hj
  rcases h j hj with hd | hw | ⟨i, hi, he⟩
  · exact Or.inl fun r hr => hdone r j (hd r hr)
  · rcases hwaits _ _ hw with hw | hw
    · exact Or.inr (Or.inl hw)
    · exact Or.inr (Or.inr ⟨_, hw, localItem_twice habs j⟩)
  · rcases hwork i hi with rfl | hi
    · obtain ⟨hroute, _, hkey, _⟩ := local_facts he
      rcases hitem with hd | hw
      · exact Or.inl fun r hr => (done_congr he).mp (hd r (hroute.trans hr))
      · exact Or.inr (Or.inl (hkey ▸ he ▸ hw))
    · exact Or.inr (Or.inr ⟨i, hi, he⟩)

theorem delivering_step (hrule : FileRule P G) (hd : Deliverable q₀ calls) {p p₁ p₂ : SharQueue}
    (h : Delivering P q₀ calls handed p) (hpop : p.popNetwork = some (item, p₁))
    (hG : ∀ ref f, route q₀ item = some ref → p₁.tree.getFile ref = some f → G f (fileOp item))
    (hr : Retried p₁ item p₂) : Delivering P q₀ calls handed p₂ := by
  obtain ⟨hwl, htree, hbl, hfired⟩ := pop_facts hpop
  have hlisted : Listed q₀ calls item := h.listed item (by simp [hwl])
  obtain ⟨j, hj, hlocal⟩ := hlisted
  obtain ⟨hroute, hsub, _, _⟩ := local_facts hlocal
  obtain ⟨ref, href⟩ := hd.routed j hj
  have hrt : route q₀ item = some ref := hroute.trans href
  have hroutes₁ : SameRoutes q₀.tree p₁.tree := htree ▸ h.routes
  have hfiles₁ : AllFiles P p₁.tree := htree ▸ h.files
  have hsame := local_same hroutes₁ item
  have hrp : route p₁ item = some ref := hsame.2.trans hrt
  have hne : subject item ≠ root := hsub ▸ hd.subjects j hj
  have hroutes := hroutes₁.trans (retried_tree hr)
  have hfiles := retried_files hrule hfiles₁ hrp hne (hG ref · hrt) hr
  have hpopped : SameKnowledge p p₁ := sameKnowledge_tree htree
  have hknown₁ := known_congr hpopped.holds
  have happ : Applied q₀ calls p₁ := applied_same h.applied hpopped hfired
  have hwork : ∀ i ∈ p.networkWorklist, i = item ∨ i ∈ p₁.networkWorklist := by
    intro i hi
    rw [hwl] at hi
    exact List.mem_cons.mp hi
  have hrest : ∀ i ∈ p₁.networkWorklist, Listed q₀ calls i :=
    fun i hi => h.listed i (by simp [hwl, hi])
  have huniq : ∀ r, route q₀ item = some r → r = ref := by
    intro r hrr
    rw [hrt, Option.some.injEq] at hrr
    exact hrr.symm
  cases retried_effect hrule hfiles₁ hrp hne (hG ref · hrt) hr with
  | idle hdone hk hb hw hf =>
    refine ⟨hroutes, hfiles, ?_, ?_, ?_, ?_, applied_same happ hk hf⟩
    · rw [hb, hbl]
      exact h.tight
    · intro k i hi
      rw [hb, hbl] at hi
      obtain ⟨hl, hki, hn⟩ := h.waits k i hi
      exact ⟨hl, hki, fun r hrr => by rw [known_congr hk.holds, hknown₁]; exact hn r hrr⟩
    · rw [hw]
      exact hrest
    · refine accounted_step item h.accounted hd.absolute ?_ ?_ ?_ (Or.inl fun r hrr => ?_)
      · intro r i hi
        exact (sameKnowledge_done hk).mpr ((sameKnowledge_done hpopped).mpr hi)
      · intro k i hi
        rw [hb, hbl]
        exact Or.inl hi
      · rw [hw]
        exact hwork
      · rw [huniq r hrr]
        exact (sameKnowledge_done hk).mpr hdone
  | waits hnot hk hb hw hf =>
    refine ⟨hroutes, hfiles, ?_, ?_, ?_, ?_, applied_same happ hk hf⟩
    · rw [hb, hbl]
      exact tight_push h.tight
    · intro k i hi
      rw [hb, hbl, waits_push] at hi
      rcases hi with hi | ⟨rfl, rfl⟩
      · obtain ⟨hl, hki, hn⟩ := h.waits k i hi
        exact ⟨hl, hki, fun r hrr => by rw [known_congr hk.holds, hknown₁]; exact hn r hrr⟩
      · rw [hsame.1]
        have htwice : localItem q₀ (localItem q₀ item) = localItem q₀ item :=
          localItem_twice hd.absolute item
        obtain ⟨hroute', _, hkey', _⟩ := local_facts htwice
        refine ⟨⟨j, hj, htwice.trans hlocal⟩, hkey', fun r hrr => ?_⟩
        rw [huniq r (hroute' ▸ hrr), known_congr hk.holds]
        exact hnot
    · rw [hw]
      exact hrest
    · refine accounted_step item h.accounted hd.absolute ?_ ?_ ?_ (Or.inr ?_)
      · intro r i hi
        exact (sameKnowledge_done hk).mpr ((sameKnowledge_done hpopped).mpr hi)
      · intro k i hi
        rw [hb, hbl, waits_push]
        exact Or.inl (Or.inl hi)
      · rw [hw]
        exact hwork
      · rw [hb, waits_push, hsame.1]
        exact Or.inr ⟨rfl, rfl⟩
  | @lands op shown he hpar hnew hholds hgone ht hb hw hpath hid hf =>
    subst he
    have hknown : ∀ r y, Known p₁ r y → Known p₂ r y := by
      intro r y hy
      obtain ⟨s, hs⟩ := known_iff_holds.mp hy
      exact known_iff_holds.mpr ⟨s, (hholds r y s).mpr (Or.inl hs)⟩
    have hback : ∀ r y, Known p₂ r y → y ≠ op.crdt.identity → Known p₁ r y := by
      intro r y hy hne
      obtain ⟨s, hs⟩ := known_iff_holds.mp hy
      rcases (hholds r y s).mp hs with hs | ⟨_, hyx, _⟩
      · exact known_iff_holds.mpr ⟨s, hs⟩
      · exact absurd hyx hne
    refine ⟨hroutes, hfiles, ht (hbl ▸ h.tight), ?_, ?_, ?_, ?_⟩
    · intro k i hi
      obtain ⟨hi, hk⟩ := (hb k i).mp hi
      rw [hbl] at hi
      obtain ⟨hl, hki, hn⟩ := h.waits k i hi
      exact ⟨hl, hki, fun r hrr hkn => hn r hrr ((hknown₁ r k).mp (hback r k hkn hk))⟩
    · intro i hi
      rcases (hw i).mp hi with hi | hi
      · exact hrest i hi
      · exact (h.waits _ i (hbl ▸ hi)).1
    · refine accounted_step (.add op) h.accounted hd.absolute ?_ ?_ ?_ (Or.inl fun r hrr => ?_)
      · intro r i hi
        rw [← sameKnowledge_done hpopped] at hi
        cases i with
        | add op' => exact hknown r _ hi
        | remove op' => exact (hgone r _).mpr (Or.inl hi)
      · intro k i hi
        rw [← hbl] at hi
        by_cases hk : k = subject (.add op)
        · exact Or.inr ((hw i).mpr (Or.inr (hk ▸ hi)))
        · exact Or.inl ((hb k i).mpr ⟨hi, hk⟩)
      · exact fun i hi => (hwork i hi).imp id fun hi => (hw i).mpr (Or.inl hi)
      · rw [huniq r hrr]
        exact known_iff_holds.mpr ⟨_, (hholds _ _ _).mpr (Or.inr ⟨rfl, rfl, rfl⟩)⟩
    · have hoff := offers_of_listed ⟨j, hj, hlocal⟩ hrt
      have hlive : op.crdt.relation.deleted = false := by
        obtain ⟨b, hb, _, _, he⟩ := hoff
        exact he ▸ hd.live b hb
      have halive : alive op.crdt.relation = op.crdt.relation := by
        rw [alive, ← hlive]
      simp only [halive, hlive, Bool.false_eq_true, and_false, or_false] at hholds hgone
      refine applied_landed happ hpar hnew hoff hholds hgone hf ?_ rfl
      have hfound : p₁.tree.findFile (localAdd p₁ op).filePath = some ref := hrp
      rw [shownAdd, hpath, hid, ← hroutes₁.findFile, hfound]
      rfl
  | @falls op he hkn hnew hholds hgone hb hw hf =>
    subst he
    refine ⟨hroutes, hfiles, ?_, ?_, ?_, ?_, ?_⟩
    · rw [hb, hbl]
      exact h.tight
    · intro k i hi
      rw [hb, hbl] at hi
      obtain ⟨hl, hki, hn⟩ := h.waits k i hi
      exact ⟨hl, hki, fun r hrr => by rw [known_congr hholds, hknown₁]; exact hn r hrr⟩
    · rw [hw]
      exact hrest
    · refine accounted_step (.remove op) h.accounted hd.absolute ?_ ?_ ?_ (Or.inl fun r hrr => ?_)
      · intro r i hi
        rw [← sameKnowledge_done hpopped] at hi
        cases i with
        | add op' => exact (known_congr hholds _ _).mpr hi
        | remove op' => exact (hgone r _).mpr (Or.inl hi)
      · intro k i hi
        rw [hb, hbl]
        exact Or.inl hi
      · rw [hw]
        exact hwork
      · rw [huniq r hrr]
        exact (hgone _ _).mpr (Or.inr ⟨rfl, rfl⟩)
    · refine applied_fallen happ hnew (removes_of_listed ⟨j, hj, hlocal⟩ hrt) hholds hgone hf
        rfl ?_
      have hfound : p₁.tree.findFile (localRemove p₁ op).filePath = some ref := hrp
      rw [shownRemove, ← hroutes₁.findFile, hfound]
      rfl

theorem delivering_handed {first : NetworkOp} (h : Delivering P q₀ calls handed q)
    (hw : q.networkWorklist = []) (hf : first ∈ calls) :
    Delivering P q₀ calls (handed ++ [first]) (QueueSteps.handed q first) := by
  refine ⟨h.routes, h.files, h.tight, h.waits, ?_, ?_,
    applied_same h.applied (sameKnowledge_tree rfl) rfl⟩
  · intro i hi
    rw [List.mem_singleton.mp hi]
    exact ⟨first, hf, rfl⟩
  · intro j hj
    rcases List.mem_append.mp hj with hj | hj
    · rcases h.accounted j hj with hdone | hwait | ⟨i, hi, _⟩
      · refine Or.inl fun r hr => ?_
        exact (sameKnowledge_done (sameKnowledge_tree rfl)).mpr (hdone r hr)
      · exact Or.inr (Or.inl hwait)
      · rw [hw] at hi
        exact absurd hi (by simp)
    · rw [List.mem_singleton.mp hj]
      exact Or.inr (Or.inr ⟨first, by simp [QueueSteps.handed], rfl⟩)

end Steps

section Runs

variable {P : SharFile → Prop} {G : SharFile → FileOp → Prop} {q₀ : SharQueue}
  {calls : List NetworkOp}

/-- `item` is tried in the queue `p` in the course of the calls. -/
def Retries (q₀ : SharQueue) (calls : List NetworkOp) (p : SharQueue) (item : NetworkOp) : Prop :=
  ∃ pre first post q, calls = pre ++ first :: post ∧ pre.foldlM deliver q₀ = some q ∧
    RetriedIn q first p item

structure Fresh (q : SharQueue) : Prop where
  backlog : q.networkBacklog = ∅
  worklist : q.networkWorklist = []
  silent : q.fired = []

theorem delivering_start (hP : AllFiles P q₀.tree) (hfresh : Fresh q₀) :
    Delivering P q₀ calls [] q₀ := by
  refine ⟨sameRoutes_refl _, hP, ?_, ?_, ?_, by simp, ?_⟩
  · rw [hfresh.backlog]
    exact tight_empty
  · intro k i hi
    obtain ⟨l, hl, _⟩ := hi
    rw [hfresh.backlog, Finmap.lookup_empty] at hl
    exact absurd hl (by simp)
  · simp [hfresh.worklist]
  · refine ⟨fun _ _ _ h => h, fun _ _ _ h => Or.inl h, fun _ _ h => h, fun _ _ h => Or.inl h, ?_,
      ?_, ?_, ?_, ?_⟩
    all_goals simp [hfresh.silent]

theorem run_delivering (hrule : FileRule P G)
    (hbreak : ∀ f x, P f → G f (.remove x) → ¬ BreakInFirstRow f x) (hd : Deliverable q₀ calls)
    (hP : AllFiles P q₀.tree) (hfresh : Fresh q₀)
    (hG : ∀ p item ref f, Retries q₀ calls p item → Applied q₀ calls p → Listed q₀ calls item →
      route q₀ item = some ref → p.tree.getFile ref = some f → P f → G f (fileOp item)) :
    ∃ q, calls.foldlM deliver q₀ = some q ∧ Delivering P q₀ calls calls q ∧
      q.networkWorklist = [] := by
  have hrun : ∀ post pre q, calls = pre ++ post → pre.foldlM deliver q₀ = some q →
      Delivering P q₀ calls pre q → q.networkWorklist = [] →
      ∃ q', post.foldlM deliver q = some q' ∧ Delivering P q₀ calls calls q' ∧
        q'.networkWorklist = [] := by
    intro post
    induction post with
    | nil =>
      intro pre q he _ hq hw
      rw [List.append_nil] at he
      exact ⟨q, rfl, he ▸ hq, hw⟩
    | cons first post ih =>
      intro pre q he hpre hq hw
      have hguard : ∀ p item p₁, Delivering P q₀ calls (pre ++ [first]) p →
          p.popNetwork = some (item, p₁) → RetriedIn q first p₁ item →
          ∀ ref f, route q₀ item = some ref → p₁.tree.getFile ref = some f →
            G f (fileOp item) := by
        intro p item p₁ hp hpop hin ref f hr hf
        obtain ⟨hwl, htree, _, hfired⟩ := pop_facts hpop
        exact hG p₁ item ref f ⟨pre, first, post, q, he, hpre, hin⟩
          (applied_same hp.applied (sameKnowledge_tree htree) hfired) (hp.listed item (by simp [hwl]))
          hr hf (hp.files ref f (htree ▸ hf))
      have hsafe : ∀ p item p₁, Delivering P q₀ calls (pre ++ [first]) p →
          p.popNetwork = some (item, p₁) → RetriedIn q first p₁ item → ¬ Crashes p₁ item := by
        rintro p item p₁ hp hpop hin ⟨op, rfl, _, ref, f, hroute, hf, hb⟩
        obtain ⟨_, htree, _, _⟩ := pop_facts hpop
        have hr : route q₀ (.remove op) = some ref := by
          rw [← (local_same (htree ▸ hp.routes : SameRoutes q₀.tree p₁.tree) _).2]
          exact hroute
        exact hbreak f _ (hp.files ref f (htree ▸ hf)) (hguard p _ p₁ hp hpop hin ref f hr hf) hb
      obtain ⟨q₁, hq₁, hJ, hw₁⟩ := deliver_returns
        (fun p hp ref f hf => hrule.sound f (hp.files ref f hf)) hsafe
        (fun p item p₁ p₂ hp hpop hin hr =>
          delivering_step hrule hd hp hpop (hguard p item p₁ hp hpop hin) hr)
        hw (delivering_handed hq hw (by simp [he]))
      obtain ⟨q', hq', hrest⟩ := ih (pre ++ [first]) q₁ (by simp [he])
        (by simp [List.foldlM_append, hpre, hq₁]) hJ hw₁
      exact ⟨q', by simp [hq₁, hq'], hrest⟩
  exact hrun calls [] q₀ rfl rfl (delivering_start hP hfresh) hfresh.worklist

/-- After the last call nothing waits, and every call has been applied. -/
structure Settled (q₀ : SharQueue) (calls : List NetworkOp) (q : SharQueue) : Prop
    extends Applied q₀ calls q where
  routes : SameRoutes q₀.tree q.tree
  backlog : q.networkBacklog = ∅
  worklist : q.networkWorklist = []
  done : ∀ j ∈ calls, ∀ ref, route q₀ j = some ref → Done q ref j

theorem delivering_settled {q : SharQueue} (hd : Deliverable q₀ calls)
    (h : Delivering P q₀ calls calls q) (hw : q.networkWorklist = []) : Settled q₀ calls q := by
  have hknown : ∀ ref x, Grounded q₀ calls ref x → Known q ref x := by
    intro ref x hx
    induction hx with
    | known hk =>
      obtain ⟨s, hs⟩ := known_iff_holds.mp hk
      exact known_iff_holds.mpr ⟨s, h.applied.kept _ _ s hs⟩
    | offered hoff _ ih =>
      obtain ⟨op, hop, hr, rfl, rfl⟩ := hoff
      rcases h.accounted _ hop with hdone | hwait | ⟨i, hi, _⟩
      · exact hdone ref hr
      · obtain ⟨_, _, hn⟩ := h.waits _ _ hwait
        have hlocal : localItem q₀ (localItem q₀ (.add op)) = localItem q₀ (.add op) :=
          localItem_twice hd.absolute _
        exact absurd ih (hn ref ((local_facts hlocal).1.trans hr))
      · rw [hw] at hi
        exact absurd hi (by simp)
  have hidle : ∀ k i, ¬ Waits q.networkBacklog k i := by
    intro k i hi
    obtain ⟨⟨j, hj, hlocal⟩, rfl, hn⟩ := h.waits k i hi
    obtain ⟨hroute, _, hkey, _⟩ := local_facts hlocal
    obtain ⟨ref, href⟩ := hd.routed j hj
    exact hn ref (hroute.trans href) (hknown ref _ (hkey ▸ hd.grounded j hj ref href))
  refine ⟨h.applied, h.routes, empty_of_tight h.tight hidle, hw, fun j hj ref hr => ?_⟩
  rcases h.accounted j hj with hdone | hwait | ⟨i, hi, _⟩
  · exact hdone ref hr
  · exact absurd hwait (hidle _ _)
  · rw [hw] at hi
    exact absurd hi (by simp)

end Runs

def fileOps (q₀ : SharQueue) (calls : List NetworkOp) (ref : FileRef) : List FileOp :=
  (calls.filter (route q₀ · = some ref)).map fileOp

theorem mem_fileOps_add {q₀ : SharQueue} {calls : List NetworkOp} {ref : FileRef} {c : CRDT} :
    .add c ∈ fileOps q₀ calls ref ↔
      ∃ op, .add op ∈ calls ∧ route q₀ (.add op) = some ref ∧ op.crdt = c := by
  simp only [fileOps, List.mem_map, List.mem_filter, decide_eq_true_eq]
  constructor
  · rintro ⟨i, ⟨hi, hr⟩, he⟩
    cases i with
    | add op => exact ⟨op, hi, hr, FileOp.add.inj he⟩
    | remove op => exact absurd he (by simp [fileOp])
  · rintro ⟨op, hop, hr, rfl⟩
    exact ⟨_, ⟨hop, hr⟩, rfl⟩

theorem mem_fileOps_remove {q₀ : SharQueue} {calls : List NetworkOp} {ref : FileRef}
    {x : Identity} : .remove x ∈ fileOps q₀ calls ref ↔ Removes q₀ calls ref x := by
  simp only [fileOps, List.mem_map, List.mem_filter, decide_eq_true_eq]
  constructor
  · rintro ⟨i, ⟨hi, hr⟩, he⟩
    cases i with
    | add op => exact absurd he (by simp [fileOp])
    | remove op => exact ⟨op, hi, hr, FileOp.remove.inj he⟩
  · rintro ⟨op, hop, hr, rfl⟩
    exact ⟨_, ⟨hop, hr⟩, rfl⟩

theorem settled_holds {q₀ q : SharQueue} {calls : List NetworkOp} (hd : Deliverable q₀ calls)
    (hs : Settled q₀ calls q) (ref : FileRef) (x : Identity) (s : CrdtRelation) :
    Holds q ref x s ↔ Holds q₀ ref x s ∨ Offers q₀ calls ref x s := by
  constructor
  · exact hs.sourced ref x s
  · rintro (hh | ho)
    · exact hs.kept ref x s hh
    · obtain ⟨op, hop, hr, rfl, rfl⟩ := id ho
      obtain ⟨t, ht⟩ := known_iff_holds.mp (hs.done _ hop ref hr)
      exact hd.consistent ref _ _ t ho (hs.sourced ref _ t ht) ▸ ht

theorem settled_gone {q₀ q : SharQueue} {calls : List NetworkOp} (hs : Settled q₀ calls q)
    (ref : FileRef) (x : Identity) : Gone q ref x ↔ Gone q₀ ref x ∨ Removes q₀ calls ref x := by
  constructor
  · exact hs.gone_sourced ref x
  · rintro (hg | hr)
    · exact hs.gone_kept ref x hg
    · obtain ⟨op, hop, hr, rfl⟩ := hr
      exact hs.done _ hop ref hr

/-- Each file is the file of the start with the calls to it written into it. -/
theorem settled_written {q₀ q : SharQueue} {calls : List NetworkOp} {ref : FileRef}
    {f₀ : SharFile} (hd : Deliverable q₀ calls) (hs : Settled q₀ calls q)
    (hf₀ : q₀.tree.getFile ref = some f₀) :
    ∃ f, q.tree.getFile ref = some f ∧
      Written f₀.characters (fileOps q₀ calls ref) f.characters := by
  obtain ⟨f, hf, _⟩ := hs.routes.file hf₀
  have hoff : ∀ x s, (∃ c, .add c ∈ fileOps q₀ calls ref ∧ c.identity = x ∧
      alive c.relation = s) ↔ Offers q₀ calls ref x s := by
    intro x s
    have halive : ∀ a, .add a ∈ calls → alive a.crdt.relation = a.crdt.relation := by
      intro a ha
      rw [alive, ← hd.live a ha]
    constructor
    · rintro ⟨c, hc, rfl, rfl⟩
      obtain ⟨op, hop, hr, rfl⟩ := mem_fileOps_add.mp hc
      exact ⟨op, hop, hr, rfl, (halive op hop).symm⟩
    · rintro ⟨op, hop, hr, rfl, rfl⟩
      exact ⟨op.crdt, mem_fileOps_add.mpr ⟨op, hop, hr, rfl⟩, rfl, halive op hop⟩
  refine ⟨f, hf, fun x s => ?_, fun x => ?_⟩
  · rw [hoff, ← holds_at hf, ← holds_at hf₀, settled_holds hd hs]
  · rw [mem_fileOps_remove, ← gone_at hf, ← gone_at hf₀, settled_gone hs]

theorem loaded_root {dirPath : PathBuf} {read : Except String (List FsEntry)} {peer : ℕ}
    {q : SharQueue} (h : SharQueue.new dirPath read peer = some (.ok q)) : q.root = dirPath := by
  have ht := (PathRouting.new_tree h).1
  cases read with
  | error e => simp [SharDirectory.new] at ht
  | ok entries =>
    simp only [SharDirectory.new, Option.bind_eq_bind, Option.bind_eq_some_iff] at ht
    obtain ⟨r, _, ht⟩ := ht
    cases r with
    | error e => simp at ht
    | ok listing =>
      simp only [Option.some.injEq, Except.ok.injEq, Prod.mk.injEq] at ht
      rw [SharQueue.root, ← ht.1]
      rfl

theorem loaded_fresh {dirPath : PathBuf} {read : Except String (List FsEntry)} {peer : ℕ}
    {q : SharQueue} (h : SharQueue.new dirPath read peer = some (.ok q)) : Fresh q := by
  obtain ⟨_, _, hq⟩ := PathRouting.new_tree h
  rw [hq]
  exact ⟨rfl, rfl, rfl⟩

theorem loaded_files {dirPath : PathBuf} {read : Except String (List FsEntry)} {peer : ℕ}
    {q : SharQueue} (h : SharQueue.new dirPath read peer = some (.ok q)) :
    AllFiles (DocumentOrder.Genesis · q.counter) q.tree := by
  have hmono : ∀ f n m, DocumentOrder.Genesis f n → n ≤ m → DocumentOrder.Genesis f m :=
    fun f n m hf hle => ⟨hf.toCanonical, hf.tombless, fun x hx => (hf.below x hx).trans hle⟩
  have hnew : ∀ path read c f n, SharFile.new path read c = some (.ok (f, n)) →
      DocumentOrder.Genesis f n ∧ c ≤ n := by
    intro path read c f n hn
    cases read with
    | error e => simp [SharFile.new] at hn
    | ok contents =>
      refine ⟨DocumentOrder.new_genesis hn, ?_⟩
      refine (new_invariant (fun f n => Sound f ∧ c ≤ n) (fun _ _ h => h.1) ?_
        ⟨emptyFile_sound path, le_rfl⟩ hn).2
      exact fun f n ch prevId o g hf ha => ⟨sound_added hf.1 ha, Nat.le_succ_of_le hf.2⟩
  obtain ⟨hfiles, _⟩ := new_files hmono hnew read dirPath 0 _ _ (PathRouting.new_tree h).1
  exact fun ref f hf => hfiles f (fileAt_mem_files hf)

end DeliveryRuns
