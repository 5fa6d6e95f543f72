import Shario.Convergence
import Shario.QueueSteps

/-! Network delivery: whatever the order and the repetitions, an operation is applied
once, and waits until what it depends on has arrived. -/
namespace NetworkDelivery

open CrdtTypes FileTree CharacterTree FilePlacement FileSafety Convergence DirectoryTree ShareQueue
  WorklistDrain TreeCalls QueueSteps

def Known (q : SharQueue) (ref : FileRef) (x : Identity) : Prop :=
  ∃ f, q.tree.getFile ref = some f ∧ x ∈ f.characters

def Gone (q : SharQueue) (ref : FileRef) (x : Identity) : Prop :=
  ∃ f, q.tree.getFile ref = some f ∧ Tomb f.characters x

def Holds (q : SharQueue) (ref : FileRef) (x : Identity) (s : CrdtRelation) : Prop :=
  ∃ f, q.tree.getFile ref = some f ∧ Carries f.characters x s

theorem known_iff_holds {q : SharQueue} {ref : FileRef} {x : Identity} :
    Known q ref x ↔ ∃ s, Holds q ref x s := by
  constructor
  · rintro ⟨f, hf, hx⟩
    obtain ⟨rel, hl⟩ := Finmap.mem_iff.mp hx
    exact ⟨alive rel, f, hf, rel, hl, rfl⟩
  · rintro ⟨s, f, hf, rel, hl, _⟩
    exact ⟨f, hf, Finmap.mem_iff.mpr ⟨rel, hl⟩⟩

def localItem (q : SharQueue) : NetworkOp → NetworkOp
  | .add op => .add (localAdd q op)
  | .remove op => .remove (localRemove q op)

def route (q : SharQueue) : NetworkOp → Option FileRef
  | .add op => q.tree.findFile (localAdd q op).filePath
  | .remove op => q.tree.findFile (localRemove q op).filePath

def key : NetworkOp → Identity
  | .add op => op.crdt.relation.parent
  | .remove op => op.identity

def subject : NetworkOp → Identity
  | .add op => op.crdt.identity
  | .remove op => op.identity

def fileOp : NetworkOp → FileOp
  | .add op => .add op.crdt
  | .remove op => .remove op.identity

def Done (q : SharQueue) (ref : FileRef) : NetworkOp → Prop
  | .add op => Known q ref op.crdt.identity
  | .remove op => Gone q ref op.identity

/-- Same files in the same states, as far as their characters go. -/
structure SameKnowledge (q q' : SharQueue) : Prop where
  holds : ∀ ref x s, Holds q' ref x s ↔ Holds q ref x s
  gone : ∀ ref x, Gone q' ref x ↔ Gone q ref x

/-- A file invariant under which an add with a known parent lands and a remove of a known
character falls, as long as the operations meet `G`. -/
structure FileRule (P : SharFile → Prop) (G : SharFile → FileOp → Prop) : Prop where
  sound : ∀ f, P f → Sound f
  add : ∀ f c o g, P f → G f (.add c) → Added f c o g → P g
  lands : ∀ f c o g, P f → G f (.add c) → c.relation.parent ∈ f.characters →
    c.identity ∉ f.characters → Added f c o g → ∃ pos, o = .ok (some pos)
  remove : ∀ f x o g, P f → x ≠ root → G f (.remove x) → Removed f x o g → P g
  falls : ∀ f x o g, P f → G f (.remove x) → Live f.characters x → Removed f x o g →
    ∃ pos, o = .ok (some pos)

/-- With every live character in a row, and row 0 not empty, an add finds its place. -/
theorem added_pos {f g : SharFile} {c : CRDT} {o : Outcome}
    (hlive : ∀ x, Live f.characters x → x ∈ f.projection.flatten)
    (htop : ∀ B, f.projection ≠ [] :: B) (hp : c.relation.parent ∈ f.characters)
    (hc : c.identity ∉ f.characters) (ha : Added f c o g) : ∃ pos, o = .ok (some pos) := by
  cases ha with
  | orphan h => exact absurd hp h
  | duplicate _ h => exact absurd h hc
  | unplaced _ _ hanchor _ hnot =>
    rcases hanchor with ⟨hl, rfl⟩ | ⟨_, ha⟩
    · exact absurd (hlive _ hl) hnot
    · exact absurd (hlive _ (anchor_live ha)) hnot
  | char _ _ _ _ => exact ⟨_, rfl⟩
  | dropped _ _ _ he => exact absurd he (htop _)
  | line _ _ _ _ => exact ⟨_, rfl⟩
  | lineAbove _ _ _ _ => exact ⟨_, rfl⟩

theorem removed_pos {f g : SharFile} {x : Identity} {o : Outcome}
    (hlive : ∀ x, Live f.characters x → x ∈ f.projection.flatten) (hl : Live f.characters x)
    (hr : Removed f x o g) : ∃ pos, o = .ok (some pos) := by
  cases hr with
  | unknown h => exact absurd hl.mem h
  | again h => exact absurd hl h.not_live
  | unplaced _ _ hnot => exact absurd (hlive x hl) hnot
  | char _ _ _ _ => exact ⟨_, rfl⟩
  | line _ _ _ _ _ => exact ⟨_, rfl⟩

/-- What a retry of a routed operation does to the queue. -/
inductive Effect (q : SharQueue) (ref : FileRef) (item : NetworkOp) (q' : SharQueue) : Prop where
  | idle : Done q ref item → SameKnowledge q q' → q'.networkBacklog = q.networkBacklog →
      q'.networkWorklist = q.networkWorklist → q'.fired = q.fired → Effect q ref item q'
  | waits : ¬ Known q ref (key item) → SameKnowledge q q' →
      q'.networkBacklog = push q.networkBacklog (key item) (localItem q item) →
      q'.networkWorklist = q.networkWorklist → q'.fired = q.fired → Effect q ref item q'
  | lands {op shown} : item = .add op → Known q ref (key item) → ¬ Known q ref (subject item) →
      (∀ r y s, Holds q' r y s ↔
        Holds q r y s ∨ r = ref ∧ y = subject item ∧ s = alive op.crdt.relation) →
      (∀ r y, Gone q' r y ↔
        Gone q r y ∨ r = ref ∧ y = subject item ∧ op.crdt.relation.deleted = true) →
      (Tight q.networkBacklog → Tight q'.networkBacklog) →
      (∀ k i, Waits q'.networkBacklog k i ↔ Waits q.networkBacklog k i ∧ k ≠ subject item) →
      (∀ i, i ∈ q'.networkWorklist ↔
        i ∈ q.networkWorklist ∨ Waits q.networkBacklog (subject item) i) →
      shown.filePath = (localAdd q op).filePath → shown.crdt.identity = subject item →
      q'.fired = q.fired ++ [.networkAdd shown] → Effect q ref item q'
  | falls {op} : item = .remove op → Known q ref (key item) → ¬ Gone q ref (subject item) →
      (∀ r y s, Holds q' r y s ↔ Holds q r y s) →
      (∀ r y, Gone q' r y ↔ Gone q r y ∨ r = ref ∧ y = subject item) →
      q'.networkBacklog = q.networkBacklog → q'.networkWorklist = q.networkWorklist →
      q'.fired = q.fired ++ [.networkRemove (localRemove q op)] → Effect q ref item q'

section Effects

variable {P : SharFile → Prop} {G : SharFile → FileOp → Prop} {q q' : SharQueue} {ref : FileRef}
  {f g : SharFile} {t : SharDirectory}

theorem getFile_set (hf : q.tree.getFile ref = some f) (r : FileRef) :
    (q.tree.setFile ref g).getFile r = if r = ref then some g else q.tree.getFile r := by
  by_cases hr : r = ref
  · subst hr
    rw [if_pos rfl, SharDirectory.getFile_setFile_self hf]
  · rw [if_neg hr, SharDirectory.getFile_setFile_ne hr]

theorem knowledge_set (hf : q.tree.getFile ref = some f) (ht : q'.tree = q.tree.setFile ref g) :
    (∀ r y s, Holds q' r y s ↔
      r = ref ∧ Carries g.characters y s ∨ r ≠ ref ∧ Holds q r y s) ∧
    (∀ r y, Gone q' r y ↔ r = ref ∧ Tomb g.characters y ∨ r ≠ ref ∧ Gone q r y) := by
  constructor
  · intro r y s
    rw [Holds, ht, getFile_set hf]
    by_cases hr : r = ref <;> simp [hr, Holds]
  · intro r y
    rw [Gone, ht, getFile_set hf]
    by_cases hr : r = ref <;> simp [hr, Gone]

theorem sameKnowledge_set (hf : q.tree.getFile ref = some f) (ht : q'.tree = q.tree.setFile ref g)
    (hg : g.characters = f.characters) : SameKnowledge q q' := by
  obtain ⟨hh, hgone⟩ := knowledge_set hf ht
  constructor
  · intro r y s
    rw [hh, hg]
    by_cases hr : r = ref
    · subst hr
      simp [Holds, hf]
    · simp [hr]
  · intro r y
    rw [hgone, hg]
    by_cases hr : r = ref
    · subst hr
      simp [Gone, hf]
    · simp [hr]

theorem added_lands {c : CRDT} {pos : Position} (hf : Sound f) (h : Added f c (.ok (some pos)) g) :
    c.relation.parent ∈ f.characters ∧ c.identity ∉ f.characters ∧
      g.characters = f.characters.insert c.identity c.relation := by
  cases h with
  | char hc _ hplace _ => exact ⟨Place.parent_mem hf hplace, hc, rfl⟩
  | line hc _ hl _ => exact ⟨hl.mem, hc, rfl⟩
  | lineAbove hc _ ht _ => exact ⟨ht.mem, hc, rfl⟩

theorem removed_falls {x : Identity} {pos : Position} (h : Removed f x (.ok (some pos)) g) :
    ∃ rel, f.characters.lookup x = some rel ∧ rel.deleted = false ∧
      g.characters = mark f.characters x rel := by
  cases h with
  | char hl hd _ _ => exact ⟨_, hl, hd, rfl⟩
  | line hl hd _ _ _ => exact ⟨_, hl, hd, rfl⟩

theorem rewriteParent_subject (u : SharDirectory) (path : PathBuf) (pos : Position)
    (op : NetworkAdd) : (SharQueue.rewriteParent u path pos op).filePath = op.filePath ∧
      (SharQueue.rewriteParent u path pos op).crdt.identity = op.crdt.identity := by
  unfold SharQueue.rewriteParent
  split <;> exact ⟨rfl, rfl⟩

theorem known_at (hf : q.tree.getFile ref = some f) {x : Identity} :
    Known q ref x ↔ x ∈ f.characters := by
  simp [Known, hf]

theorem holds_at (hf : q.tree.getFile ref = some f) {x : Identity} {s : CrdtRelation} :
    Holds q ref x s ↔ Carries f.characters x s := by
  simp [Holds, hf]

theorem gone_at (hf : q.tree.getFile ref = some f) {x : Identity} :
    Gone q ref x ↔ Tomb f.characters x := by
  simp [Gone, hf]

theorem knowledge_landed {c : CRDT} (hf : q.tree.getFile ref = some f)
    (ht : q'.tree = q.tree.setFile ref g) (hc : c.identity ∉ f.characters)
    (hg : g.characters = f.characters.insert c.identity c.relation) :
    (∀ r y s, Holds q' r y s ↔
      Holds q r y s ∨ r = ref ∧ y = c.identity ∧ s = alive c.relation) ∧
    (∀ r y, Gone q' r y ↔
      Gone q r y ∨ r = ref ∧ y = c.identity ∧ c.relation.deleted = true) := by
  obtain ⟨hholds, hgone⟩ := knowledge_set hf ht
  constructor
  · intro r y s
    rw [hholds, hg, carries_insert hc]
    by_cases hr : r = ref
    · subst hr
      simp [Holds, hf, eq_comm]
    · simp [hr]
  · intro r y
    rw [hgone, hg]
    by_cases hr : r = ref
    · subst hr
      simp only [true_and, ne_eq, not_true_eq_false, false_and, or_false, gone_at hf]
      by_cases hy : y = c.identity
      · subst hy
        rw [tomb_iff (Finmap.lookup_insert _)]
        simp only [true_and, iff_or_self]
        exact fun h => absurd h.mem hc
      · simp [tomb_insert_ne hy, hy]
    · simp [hr]

theorem knowledge_marked {x : Identity} {rel : CrdtRelation} (hf : q.tree.getFile ref = some f)
    (ht : q'.tree = q.tree.setFile ref g) (hl : f.characters.lookup x = some rel)
    (hg : g.characters = mark f.characters x rel) :
    (∀ r y s, Holds q' r y s ↔ Holds q r y s) ∧
    (∀ r y, Gone q' r y ↔ Gone q r y ∨ r = ref ∧ y = x) := by
  obtain ⟨hholds, hgone⟩ := knowledge_set hf ht
  constructor
  · intro r y s
    rw [hholds, hg, carries_mark hl]
    by_cases hr : r = ref
    · subst hr
      simp [Holds, hf]
    · simp [hr]
  · intro r y
    rw [hgone, hg, tomb_mark]
    by_cases hr : r = ref
    · subst hr
      simp [Gone, hf]
    · simp [hr]

theorem added_knowledge (hrule : FileRule P G) (hP : AllFiles P q.tree) {path : PathBuf} {c : CRDT}
    {o : Outcome} (hroute : q.tree.findFile path = some ref)
    (hG : ∀ f, q.tree.getFile ref = some f → G f (.add c)) (ha : TreeAdded q.tree path c o t) :
    (∃ pos, o = .ok (some pos) ∧ Known q ref c.relation.parent ∧ ¬ Known q ref c.identity ∧
      ∀ q' : SharQueue, q'.tree = t →
        (∀ r y s, Holds q' r y s ↔
          Holds q r y s ∨ r = ref ∧ y = c.identity ∧ s = alive c.relation) ∧
        (∀ r y, Gone q' r y ↔
          Gone q r y ∨ r = ref ∧ y = c.identity ∧ c.relation.deleted = true)) ∨
    (o = .ok none ∧ Known q ref c.identity ∧ ∀ q' : SharQueue, q'.tree = t → SameKnowledge q q') ∨
    (∃ e, o = .error e ∧ ¬ Known q ref c.relation.parent ∧
      ∀ q' : SharQueue, q'.tree = t → SameKnowledge q q') := by
  cases ha with
  | lost hn =>
    rw [hn] at hroute
    exact absurd hroute (by simp)
  | @routed ref' f o g hr hf ha =>
    rw [hr, Option.some.injEq] at hroute
    subst hroute
    by_cases hp : c.relation.parent ∈ f.characters
    · by_cases hc : c.identity ∈ f.characters
      · have hdup : o = .ok none ∧ g = f := by
          cases ha with
          | orphan h => exact absurd hp h
          | duplicate _ _ => exact ⟨rfl, rfl⟩
          | unplaced _ h _ _ _ => exact absurd hc h
          | char h _ _ _ => exact absurd hc h
          | dropped h _ _ _ => exact absurd hc h
          | line h _ _ _ => exact absurd hc h
          | lineAbove h _ _ _ => exact absurd hc h
        obtain ⟨rfl, rfl⟩ := hdup
        exact Or.inr (Or.inl ⟨rfl, (known_at hf).mpr hc, fun q' ht => sameKnowledge_set hf ht rfl⟩)
      · obtain ⟨pos, rfl⟩ := hrule.lands f c o g (hP ref' f hf) (hG f hf) hp hc ha
        obtain ⟨_, _, hg⟩ := added_lands (hrule.sound f (hP ref' f hf)) ha
        exact Or.inl ⟨pos, rfl, (known_at hf).mpr hp, fun hk => hc ((known_at hf).mp hk),
          fun q' ht => knowledge_landed hf ht hc hg⟩
    · have horphan : (∃ e, o = .error e) ∧ g = f := by
        cases ha with
        | orphan _ => exact ⟨⟨_, rfl⟩, rfl⟩
        | duplicate h _ => exact absurd h hp
        | unplaced h _ _ _ _ => exact absurd h hp
        | char _ _ hplace _ =>
          exact absurd (Place.parent_mem (hrule.sound f (hP ref' f hf)) hplace) hp
        | dropped _ _ hr _ =>
          exact absurd (hrule.sound f (hP ref' f hf)).rooted.root_mem (hr ▸ hp)
        | line _ _ hl _ => exact absurd hl.mem hp
        | lineAbove _ _ ht _ => exact absurd ht.mem hp
      obtain ⟨⟨e, rfl⟩, rfl⟩ := horphan
      exact Or.inr (Or.inr ⟨e, rfl, fun hk => hp ((known_at hf).mp hk),
        fun q' ht => sameKnowledge_set hf ht rfl⟩)

theorem removed_knowledge (hrule : FileRule P G) (hP : AllFiles P q.tree) {path : PathBuf}
    {x : Identity} {o : Outcome} (hroute : q.tree.findFile path = some ref)
    (hG : ∀ f, q.tree.getFile ref = some f → G f (.remove x)) (ha : TreeRemoved q.tree path x o t) :
    (∃ pos, o = .ok (some pos) ∧ Known q ref x ∧ ¬ Gone q ref x ∧
      ∀ q' : SharQueue, q'.tree = t → (∀ r y s, Holds q' r y s ↔ Holds q r y s) ∧
        (∀ r y, Gone q' r y ↔ Gone q r y ∨ r = ref ∧ y = x)) ∨
    (o = .ok none ∧ Gone q ref x ∧ ∀ q' : SharQueue, q'.tree = t → SameKnowledge q q') ∨
    (∃ e, o = .error e ∧ ¬ Known q ref x ∧
      ∀ q' : SharQueue, q'.tree = t → SameKnowledge q q') := by
  cases ha with
  | lost hn =>
    rw [hn] at hroute
    exact absurd hroute (by simp)
  | @routed ref' f o g hr hf ha =>
    rw [hr, Option.some.injEq] at hroute
    subst hroute
    by_cases hx : x ∈ f.characters
    · rcases live_or_tomb hx with hl | ht
      · obtain ⟨pos, rfl⟩ := hrule.falls f x o g (hP ref' f hf) (hG f hf) hl ha
        obtain ⟨rel, hlook, _, hg⟩ := removed_falls ha
        exact Or.inl ⟨pos, rfl, (known_at hf).mpr hx, fun hk => ((gone_at hf).mp hk).not_live hl,
          fun q' ht => knowledge_marked hf ht hlook hg⟩
      · have hagain : o = .ok none ∧ g = f := by
          cases ha with
          | unknown h => exact absurd hx h
          | again _ => exact ⟨rfl, rfl⟩
          | unplaced hl hd _ => exact absurd ⟨_, hl, hd⟩ ht.not_live
          | char hl hd _ _ => exact absurd ⟨_, hl, hd⟩ ht.not_live
          | line hl hd _ _ _ => exact absurd ⟨_, hl, hd⟩ ht.not_live
        obtain ⟨rfl, rfl⟩ := hagain
        exact Or.inr (Or.inl ⟨rfl, (gone_at hf).mpr ht, fun q' ht => sameKnowledge_set hf ht rfl⟩)
    · have hunknown : (∃ e, o = .error e) ∧ g = f := by
        cases ha with
        | unknown _ => exact ⟨⟨_, rfl⟩, rfl⟩
        | again h => exact absurd h.mem hx
        | unplaced hl _ _ => exact absurd (Finmap.mem_iff.mpr ⟨_, hl⟩) hx
        | char hl _ _ _ => exact absurd (Finmap.mem_iff.mpr ⟨_, hl⟩) hx
        | line hl _ _ _ _ => exact absurd (Finmap.mem_iff.mpr ⟨_, hl⟩) hx
      obtain ⟨⟨e, rfl⟩, rfl⟩ := hunknown
      exact Or.inr (Or.inr ⟨e, rfl, fun hk => hx ((known_at hf).mp hk),
        fun q' ht => sameKnowledge_set hf ht rfl⟩)

theorem add_effect (hrule : FileRule P G) (hP : AllFiles P q.tree) {op : NetworkAdd}
    (hroute : route q (.add op) = some ref)
    (hG : ∀ f, q.tree.getFile ref = some f → G f (.add op.crdt)) (hne : op.crdt.identity ≠ root)
    (h : Retried q (.add op) q') : Effect q ref (.add op) q' := by
  cases h with
  | rootAdd hr => exact absurd hr hne
  | @landed _ pos t _ ht =>
    rcases added_knowledge hrule hP hroute hG ht with ⟨_, _, hp, hc, hknow⟩ | ⟨ho, _⟩ | ⟨e, ho, _⟩
    · obtain ⟨hshown, hid⟩ := rewriteParent_subject t (localAdd q op).filePath pos (localAdd q op)
      generalize hp' : (withTree (counted q op.crdt.id) t).fire (.networkAdd
        (SharQueue.rewriteParent t (localAdd q op).filePath pos (localAdd q op))) = p
      have ht : p.tree = t := by rw [← hp']; rfl
      have hb : p.networkBacklog = q.networkBacklog := by rw [← hp']; rfl
      have hw : p.networkWorklist = q.networkWorklist := by rw [← hp']; rfl
      obtain ⟨hholds, hgone⟩ := hknow _ ((queueNetwork_tree p op.crdt.identity).trans ht)
      refine .lands rfl hp hc hholds hgone ?_ ?_ ?_ hshown hid ?_
      · rw [← hb]
        exact queueNetwork_tight p _
      · intro k i
        rw [queueNetwork_backlog, hb]
        rfl
      · intro i
        rw [queueNetwork_worklist, hb, hw]
        rfl
      · rw [queueNetwork_fired, ← hp']
        rfl
    · exact absurd ho (by simp)
    · exact absurd ho (by simp)
  | @repeated _ t _ ht =>
    rcases added_knowledge hrule hP hroute hG ht with ⟨_, ho, _⟩ | ⟨_, hc, hsame⟩ | ⟨e, ho, _⟩
    · exact absurd ho (by simp)
    · exact .idle hc (hsame _ rfl) rfl rfl rfl
    · exact absurd ho (by simp)
  | @early _ e t _ ht =>
    rcases added_knowledge hrule hP hroute hG ht with ⟨_, ho, _⟩ | ⟨ho, _⟩ | ⟨_, _, hp, hsame⟩
    · exact absurd ho (by simp)
    · exact absurd ho (by simp)
    · exact .waits hp (hsame _ rfl) rfl rfl rfl

theorem remove_effect (hrule : FileRule P G) (hP : AllFiles P q.tree) {op : Remove}
    (hroute : route q (.remove op) = some ref)
    (hG : ∀ f, q.tree.getFile ref = some f → G f (.remove op.identity)) (hne : op.identity ≠ root)
    (h : Retried q (.remove op) q') : Effect q ref (.remove op) q' := by
  cases h with
  | rootRemove hr => exact absurd hr hne
  | @fallen _ pos t _ ht =>
    rcases removed_knowledge hrule hP hroute hG ht with ⟨_, _, hx, hn, hknow⟩ | ⟨ho, _⟩ | ⟨e, ho, _⟩
    · exact .falls rfl hx hn (hknow _ rfl).1 (hknow _ rfl).2 rfl rfl rfl
    · exact absurd ho (by simp)
    · exact absurd ho (by simp)
  | @again _ t _ ht =>
    rcases removed_knowledge hrule hP hroute hG ht with ⟨_, ho, _⟩ | ⟨_, hg, hsame⟩ | ⟨e, ho, _⟩
    · exact absurd ho (by simp)
    · exact .idle hg (hsame _ rfl) rfl rfl rfl
    · exact absurd ho (by simp)
  | @earlyRemove _ e t _ ht =>
    rcases removed_knowledge hrule hP hroute hG ht with ⟨_, ho, _⟩ | ⟨ho, _⟩ | ⟨_, _, hx, hsame⟩
    · exact absurd ho (by simp)
    · exact absurd ho (by simp)
    · exact .waits hx (hsame _ rfl) rfl rfl rfl

end Effects

end NetworkDelivery
