import Shario.DeliveryRuns

/-! Adds and removals of characters within a line, delivered in any order and with
repetitions to a freshly loaded queue. -/
namespace ExactlyOnce

open CrdtTypes RowLayout FileTree FileSearch CharacterTree FilePlacement FileSafety FileShape
  Convergence DirectoryTree ShareQueue TreeCalls QueueSteps NetworkDelivery DeliveryRuns

def Headed (m : Characters) (row : List Identity) : Prop :=
  ∃ h u, row = h :: u ∧ (h = root ∨ Breaks m h)

/-- Weaker than `Shape`: a line break may have been put before the root. -/
structure Firm (f : SharFile) : Prop extends Sound f where
  headed : ∀ row ∈ f.projection, Headed f.characters row
  live : ∀ x, Live f.characters x ↔ x ∈ f.projection.flatten
  firstborn : ∀ x, Tomb f.characters x → parentOf f.characters x ≠ some root

/-- The calls under which a file stays firm. -/
def Mild (f : SharFile) : FileOp → Prop
  | .add c => c.relation.deleted = false
  | .remove x => ¬ Breaks f.characters x ∧ parentOf f.characters x ≠ some root

section Rows

variable {f f' : SharFile} {c : CRDT} {x : Identity} {rel : CrdtRelation} {o : Outcome}
  {p A B : List (List Identity)} {pre post : List Identity} {m : Characters}

theorem headed_ne (h : Headed m pre) : pre ≠ [] := by
  obtain ⟨h, u, rfl, _⟩ := h
  simp

theorem headed_front (hpre : pre ≠ []) (h : Headed m (pre ++ post)) (s : List Identity) :
    Headed m (pre ++ s) := by
  obtain ⟨b, pre, rfl⟩ := List.exists_cons_of_ne_nil hpre
  obtain ⟨h, u, he, hh⟩ := h
  rw [List.cons_append, List.cons.injEq] at he
  exact ⟨b, pre ++ s, by simp, he.1 ▸ hh⟩

theorem slot_firm (hf : Firm f) (hx : Tomb f.characters x) (hs : Slot f x A pre post B) :
    pre ≠ [] := by
  induction hs with
  | root hp _ => exact absurd hp (hf.firstborn _ hx)
  | live _ _ _ _ => simp
  | tomb _ ht _ ih => exact fun he => ih ht (List.append_eq_nil_iff.mp he).1

theorem firm_place {y : Identity} (hf : Firm f) (hplace : Place f y A pre post B) : pre ≠ [] := by
  cases hplace with
  | @root line B hrows =>
    have hl : line ≠ [] := headed_ne (hf.headed line (by simp [hrows]))
    obtain ⟨b, line, rfl⟩ := List.exists_cons_of_ne_nil hl
    simp
  | live _ _ _ => simp
  | tomb ht hs => exact slot_firm hf ht hs

theorem firm_landed (hf : Firm f) (hc : c.identity ∉ f.characters)
    (hp : c.relation.parent ∈ f.characters) (hd : c.relation.deleted = false)
    (hne : p ≠ []) (hperm : p.flatten.Perm (c.identity :: f.projection.flatten))
    (hhead : ∀ row ∈ p, Headed (f.characters.insert c.identity c.relation) row) :
    Firm (landed f c p) where
  toSound := sound_landed hf.toSound hc hp hne hperm
  headed := hhead
  live := live_landed hf.live hd hperm
  firstborn := by
    intro x hx
    change parentOf (f.characters.insert c.identity c.relation) x ≠ some root
    have hxc : x ≠ c.identity := by
      rintro rfl
      rw [landed, tomb_iff (Finmap.lookup_insert _), hd] at hx
      exact absurd hx (by simp)
    rw [parentOf_insert_ne hxc]
    exact hf.firstborn x ((tomb_insert_ne hxc).mp hx)

theorem firm_added (hf : Firm f) (hd : c.relation.deleted = false) (ha : Added f c o f') :
    Firm f' := by
  have hold : c.identity ∉ f.characters → ∀ row ∈ f.projection,
      Headed (f.characters.insert c.identity c.relation) row := by
    intro hc row hrow
    obtain ⟨h, u, rfl, hh⟩ := hf.headed row hrow
    refine ⟨h, u, rfl, hh.imp id fun hb => ?_⟩
    have hne : h ≠ c.identity := by
      rintro rfl
      exact hc (hf.known _ (List.mem_flatten.mpr ⟨_, hrow, by simp⟩))
    exact (breaks_insert_ne hne).mpr hb
  -- the rows around the place, and the one that was cut in two
  have hrows : ∀ {A B pre post}, c.identity ∉ f.characters →
      f.projection = A ++ (pre ++ post) :: B → pre ≠ [] →
      (∀ row ∈ A ++ B, Headed (f.characters.insert c.identity c.relation) row) ∧
      ∀ s, Headed (f.characters.insert c.identity c.relation) (pre ++ s) := by
    intro A B pre post hc he hpre
    refine ⟨fun row hrow => hold hc row ?_, headed_front hpre (hold hc (pre ++ post) ?_)⟩
    · rw [he]
      exact (List.mem_append.mp hrow).elim (by simp +contextual) (by simp +contextual)
    · simp [he]
  cases ha with
  | orphan _ => exact hf
  | duplicate _ _ => exact hf
  | unplaced _ _ _ _ _ => exact hf
  | @char A pre post B hc hb hplace _ =>
    have hpre := firm_place hf hplace
    have hscan := hplace.scan (skips f.characters c.relation.parent c.identity)
    obtain ⟨hrest, hrow⟩ := hrows hc (hplace.rows) hpre
    refine firm_landed hf hc (Place.parent_mem hf.toSound hplace) hd (by simp) ?_ ?_
    · rw [hscan]
      exact insert_perm _ _ _ _ _
    · intro row hin
      rcases List.mem_append.mp hin with hin | hin
      · exact hrest row (by simp [hin])
      · rcases List.mem_cons.mp hin with rfl | hin
        · rw [List.append_assoc]
          exact hrow _
        · exact hrest row (by simp [hin])
  | dropped _ _ _ he =>
    exact absurd rfl (headed_ne (hf.headed [] (by simp [he])))
  | @line A pre post B hc hb hl hplace =>
    obtain ⟨hrest, hrow⟩ := hrows hc hplace.rows (firm_place hf hplace)
    refine firm_landed hf hc hl.mem hd (by simp) ?_ ?_
    · rw [hplace.rows]
      exact split_perm _ _ _ _ _
    · intro row hin
      simp only [List.mem_append, List.mem_cons] at hin
      rcases hin with hin | rfl | rfl | hin
      · exact hrest row (by simp [hin])
      · simpa using hrow []
      · exact ⟨_, _, rfl, Or.inr (breaks_insert_self.mpr hb)⟩
      · exact hrest row (by simp [hin])
  | @lineAbove A pre post B hc hb ht hs =>
    obtain ⟨hrest, hrow⟩ := hrows hc hs.rows (slot_firm hf ht hs)
    refine firm_landed hf hc ht.mem hd (by simp) ?_ ?_
    · rw [hs.rows]
      exact above_perm _ _ _ _ _
    · intro row hin
      simp only [List.mem_append, List.mem_cons] at hin
      rcases hin with hin | rfl | rfl | hin
      · exact hrest row (by simp [hin])
      · exact ⟨_, _, rfl, Or.inr (breaks_insert_self.mpr hb)⟩
      · simpa using hrow []
      · exact hrest row (by simp [hin])

theorem firm_removed (hf : Firm f) (hx : x ≠ root) (hm : Mild f (.remove x))
    (hr : Removed f x o f') : Firm f' := by
  obtain ⟨hnb, hnr⟩ := hm
  cases hr with
  | unknown _ => exact hf
  | again _ => exact hf
  | unplaced hl hd hnot => exact absurd ((hf.live x).mp ⟨_, hl, hd⟩) hnot
  | @char rel A u v B hl hd hb hrows =>
    have hperm : f.projection.flatten.Perm (x :: (A ++ (u ++ v) :: B).flatten) := by
      rw [hrows]
      exact insert_perm _ _ _ _ _
    refine ⟨sound_marked hf.toSound hx hl (by simp) ?_, ?_, live_marked hf.live hf.nodup hperm, ?_⟩
    · rw [hrows]
      exact erase_sublist _ _ _ _ _
    · intro row hrow
      have hbreaks : ∀ {row}, Headed f.characters row → Headed (mark f.characters x rel) row :=
        fun ⟨h, u, he, hh⟩ => ⟨h, u, he, hh.imp id (breaks_mark hl).mpr⟩
      have hu : u ≠ [] := by
        rintro rfl
        obtain ⟨h, w, he, hh⟩ := hf.headed ([] ++ x :: v) (by simp [hrows])
        rw [List.nil_append, List.cons.injEq] at he
        exact hh.elim (fun h => hx (he.1.trans h)) fun h => hnb (he.1 ▸ h)
      have hrow' : row ∈ A ++ (u ++ v) :: B := hrow
      rcases List.mem_append.mp hrow' with hrow | hrow
      · exact hbreaks (hf.headed row (by simp [hrows, hrow]))
      · rcases List.mem_cons.mp hrow with rfl | hrow
        · exact hbreaks (headed_front hu (hf.headed (u ++ x :: v) (by simp [hrows])) v)
        · exact hbreaks (hf.headed row (by simp [hrows, hrow]))
    · intro y hy
      change parentOf (mark f.characters x rel) y ≠ some root
      rw [parentOf_mark hl]
      rcases tomb_mark.mp hy with hy | rfl
      · exact hf.firstborn y hy
      · exact hnr
  | line hl _ hb _ _ => exact absurd ((breaks_iff hl).mpr hb) hnb

theorem firm_rule : FileRule Firm Mild where
  sound := fun _ h => h.toSound
  add := fun _ _ _ _ hf hd ha => firm_added hf hd ha
  lands := fun f _ _ _ hf _ hp hc ha => added_pos (fun x => (hf.live x).mp)
    (fun B he => headed_ne (hf.headed [] (by simp [he])) rfl) hp hc ha
  remove := fun _ _ _ _ hf hx hm hr => firm_removed hf hx hm hr
  falls := fun _ _ _ _ hf _ hl hr => removed_pos (fun x => (hf.live x).mp) hl hr

end Rows

theorem genesis_firm {f : SharFile} {n : ℕ} (hf : DocumentOrder.Genesis f n) : Firm f := by
  refine ⟨hf.toSound, ?_, hf.live, fun x hx => absurd hx (hf.tombless x)⟩
  intro row hrow
  obtain ⟨u, B, hrows⟩ := hf.headed
  have hlay := hf.layout
  rw [hrows] at hrow hlay
  rcases List.mem_cons.mp hrow with rfl | hrow
  · exact ⟨root, u, rfl, Or.inl rfl⟩
  · obtain ⟨b, w, rfl, hb, _⟩ := hlay.2 row hrow
    exact ⟨b, w, rfl, Or.inr hb⟩

/-- Operations that build on the queue or on each other: every add has a new identity of its own,
and every removal means an ordinary character that is no child of the root. A path routes to some
file, whatever file its sender meant. -/
structure Deliveries (q₀ : SharQueue) (calls : List NetworkOp) : Prop where
  routed : ∀ i ∈ calls, ∃ ref, route q₀ i = some ref
  adds : ∀ a, .add a ∈ calls → a.crdt.relation.deleted = false
  distinct : ∀ a b, .add a ∈ calls → .add b ∈ calls → a.crdt.identity = b.crdt.identity → a = b
  fresh : ∀ a, .add a ∈ calls → ∀ ref, ¬ Known q₀ ref a.crdt.identity
  parents : ∀ a, .add a ∈ calls → ∀ ref, route q₀ (.add a) = some ref →
    Grounded q₀ calls ref a.crdt.relation.parent
  targets : ∀ r, .remove r ∈ calls → ∀ ref, route q₀ (.remove r) = some ref →
    ∃ s, (Holds q₀ ref r.identity s ∨ Offers q₀ calls ref r.identity s) ∧
      isLineBreak s.value = false ∧ s.parent ≠ root

section Deliveries

variable {q₀ q : SharQueue} {calls : List NetworkOp} {ref : FileRef} {x : Identity}

theorem holds_unique {s s' : CrdtRelation} (h : Holds q ref x s) (h' : Holds q ref x s') :
    s' = s := by
  obtain ⟨f, hf, rel, hl, rfl⟩ := h
  obtain ⟨f', hf', rel', hl', rfl⟩ := h'
  rw [hf, Option.some.injEq] at hf'
  subst hf'
  rw [hl, Option.some.injEq] at hl'
  rw [hl']

theorem offers_unique (h : Deliveries q₀ calls) {s s' : CrdtRelation}
    (ho : Offers q₀ calls ref x s) (ho' : Offers q₀ calls ref x s') : s' = s := by
  obtain ⟨a, ha, _, hax, rfl⟩ := ho
  obtain ⟨b, hb, _, hbx, rfl⟩ := ho'
  rw [h.distinct a b ha hb (hax.trans hbx.symm)]

theorem offers_fresh (h : Deliveries q₀ calls) {s : CrdtRelation}
    (ho : Offers q₀ calls ref x s) : ¬ Known q₀ ref x := by
  obtain ⟨a, ha, _, rfl, _⟩ := ho
  exact h.fresh a ha ref

theorem source_unique (h : Deliveries q₀ calls) {s s' : CrdtRelation}
    (ho : Holds q₀ ref x s ∨ Offers q₀ calls ref x s)
    (ho' : Holds q₀ ref x s' ∨ Offers q₀ calls ref x s') : s' = s := by
  rcases ho with hh | ho <;> rcases ho' with hh' | ho'
  · exact holds_unique hh hh'
  · exact absurd (known_iff_holds.mpr ⟨s, hh⟩) (offers_fresh h ho')
  · exact absurd (known_iff_holds.mpr ⟨s', hh'⟩) (offers_fresh h ho)
  · exact offers_unique h ho ho'

theorem root_holds (hP : AllFiles Firm q₀.tree) {s : CrdtRelation} (h : Holds q₀ ref root s) :
    s.parent = root := by
  obtain ⟨f, hf, rel, hl, rfl⟩ := h
  rw [(hP ref f hf).rooted.root_entry, Option.some.injEq] at hl
  rw [← hl]
  rfl

theorem deliverable (habs : isAbsolute q₀.root = true) (hP : AllFiles Firm q₀.tree)
    (h : Deliveries q₀ calls) : Deliverable q₀ calls := by
  have hadd : ∀ a, .add a ∈ calls → a.crdt.identity ≠ root := by
    intro a ha hr
    obtain ⟨ref, href⟩ := h.routed _ ha
    obtain ⟨f, hf⟩ := SharDirectory.getFile_of_findFile href
    exact h.fresh a ha ref (hr ▸ ⟨f, hf, (hP ref f hf).rooted.root_mem⟩)
  refine ⟨habs, h.routed, ?_, h.adds, ?_, ?_⟩
  · intro i hi
    cases i with
    | add a => exact hadd a hi
    | remove r =>
      intro hr
      obtain ⟨ref, href⟩ := h.routed _ hi
      have hr' : r.identity = root := hr
      obtain ⟨s, hs | ⟨a, ha, _, hax, _⟩, _, hne⟩ := h.targets r hi ref href
      · exact hne (root_holds hP (hr' ▸ hs))
      · exact hadd a ha (hax.trans hr')
  · exact fun ref x s s' ho ho' => source_unique h (Or.inr ho) ho'
  · intro i hi ref href
    cases i with
    | add a => exact h.parents a hi ref href
    | remove r =>
      obtain ⟨s, hs | ho, _, _⟩ := h.targets r hi ref href
      · exact .known (known_iff_holds.mpr ⟨s, hs⟩)
      · obtain ⟨a, ha, hra, _, rfl⟩ := id ho
        exact .offered ho (h.parents a ha ref hra)

theorem mild_calls (h : Deliveries q₀ calls) {p : SharQueue}
    {item : NetworkOp} {f : SharFile} (happ : Applied q₀ calls p) (hl : Listed q₀ calls item)
    (hr : route q₀ item = some ref) (hf : p.tree.getFile ref = some f) :
    Mild f (fileOp item) := by
  cases item with
  | add a =>
    obtain ⟨b, hb, _, _, he⟩ := offers_of_listed hl hr
    rw [fileOp, Mild, ← he]
    exact h.adds b hb
  | remove r =>
    obtain ⟨b, hb, hrb, he⟩ := removes_of_listed hl hr
    obtain ⟨s, hs, hnb, hne⟩ := h.targets b hb ref hrb
    rw [he] at hs
    have hsame : ∀ rel, f.characters.lookup r.identity = some rel → alive rel = s :=
      fun rel hl => source_unique h hs (happ.sourced ref _ _ ⟨f, hf, rel, hl, rfl⟩)
    constructor
    · rintro ⟨rel, hl, hbreak⟩
      have hval : isLineBreak (alive rel).value = true := hbreak
      rw [hsame rel hl, hnb] at hval
      exact absurd hval (by simp)
    · intro hpar
      obtain ⟨_, rel, hl, hpr⟩ := parentOf_eq_some.mp hpar
      have hpar' : (alive rel).parent = root := hpr
      exact hne (hsame rel hl ▸ hpar')

end Deliveries

structure DeliveredOnce (q₀ : SharQueue) (calls : List NetworkOp) (q : SharQueue) : Prop where
  backlog : q.networkBacklog = ∅
  worklist : q.networkWorklist = []
  files : ∀ ref f₀, q₀.tree.getFile ref = some f₀ → ∃ f, q.tree.getFile ref = some f ∧
    Written f₀.characters (fileOps q₀ calls ref) f.characters
  adds_once : (q.fired.filterMap (shownAdd q₀.tree)).Nodup
  adds_shown : ∀ ref x, (ref, x) ∈ q.fired.filterMap (shownAdd q₀.tree) ↔
    ∃ s, Offers q₀ calls ref x s
  parents_first : ∀ ref x s, Offers q₀ calls ref x s → (∃ s', Offers q₀ calls ref s.parent s') →
    ∃ l r, q.fired.filterMap (shownAdd q₀.tree) = l ++ (ref, x) :: r ∧ (ref, s.parent) ∈ l
  removes_once : (q.fired.filterMap (shownRemove q₀.tree)).Nodup
  removes_shown : ∀ ref x, (ref, x) ∈ q.fired.filterMap (shownRemove q₀.tree) ↔
    Removes q₀ calls ref x

theorem delivered_once {q₀ : SharQueue} {dirPath : PathBuf} {read : Except String (List FsEntry)}
    {peer : ℕ} {calls : List NetworkOp} (hnew : SharQueue.new dirPath read peer = some (.ok q₀))
    (habs : isAbsolute dirPath = true) (h : Deliveries q₀ calls) :
    ∃ q, calls.foldlM deliver q₀ = some q ∧ DeliveredOnce q₀ calls q := by
  have hfiles := loaded_files hnew
  have hfirm : AllFiles Firm q₀.tree := fun ref f hf => genesis_firm (hfiles ref f hf)
  have hroot : q₀.root = dirPath := loaded_root hnew
  have hd := deliverable (hroot ▸ habs) hfirm h
  have hgone : ∀ ref x, ¬ Gone q₀ ref x := by
    rintro ref x ⟨f, hf, ht⟩
    exact (hfiles ref f hf).tombless x ht
  obtain ⟨q, hq, hJ, hw⟩ := run_delivering firm_rule
    (fun _ _ _ hm hb => hm.1 hb.2.1) hd hfirm (loaded_fresh hnew)
    fun p item ref f _ happ hl hr hf _ => mild_calls h happ hl hr hf
  have hs := delivering_settled hd hJ hw
  have hknown : ∀ ref x, Known q ref x ∧ ¬ Known q₀ ref x ↔ ∃ s, Offers q₀ calls ref x s := by
    intro ref x
    constructor
    · rintro ⟨hk, hn⟩
      obtain ⟨s, hk⟩ := known_iff_holds.mp hk
      rcases hs.sourced ref x s hk with hh | ho
      · exact absurd (known_iff_holds.mpr ⟨s, hh⟩) hn
      · exact ⟨s, ho⟩
    · rintro ⟨s, ho⟩
      refine ⟨?_, offers_fresh h ho⟩
      obtain ⟨a, ha, hr, rfl, _⟩ := ho
      exact hs.done _ ha ref hr
  refine ⟨q, hq, hs.backlog, hs.worklist, fun ref f₀ hf₀ => settled_written hd hs hf₀,
    hs.adds_once, fun ref x => (hs.adds_shown ref x).trans (hknown ref x), ?_, hs.removes_once, ?_⟩
  · rintro ref x s ho ⟨s', hp⟩
    have hin := (hs.adds_shown ref x).mpr ((hknown ref x).mpr ⟨s, ho⟩)
    obtain ⟨l, r, hl⟩ := List.append_of_mem hin
    obtain ⟨t, ht⟩ := known_iff_holds.mp ((hknown ref x).mpr ⟨s, ho⟩).1
    have hts : t = s := source_unique h (Or.inr ho) (hs.sourced ref x t ht)
    refine ⟨l, r, hl, (hs.parents_first l r ref x s hl (hts ▸ ht)).resolve_left ?_⟩
    exact offers_fresh h hp
  · intro ref x
    rw [hs.removes_shown]
    constructor
    · exact fun hg => (hs.gone_sourced ref x hg.1).resolve_left (hgone ref x)
    · intro hr
      refine ⟨?_, hgone ref x⟩
      obtain ⟨r, hin, hroute, rfl⟩ := hr
      exact hs.done _ hin ref hroute

def lineOp : NetworkAdd := ⟨[.normal "f"], ⟨11, 1, .new '\n' 1 0⟩, 0⟩

def charOp : NetworkAdd := ⟨[.normal "f"], ⟨12, 1, .new 'y' 11 1⟩, 0⟩

/-- In a file `ab`: a new line, its first character and a removal of that, each before what
it depends on, one of them twice, and a removal of the loaded `b`. -/
def backwards : List NetworkOp :=
  [.remove ⟨[.normal "f"], 12, 1, 0⟩, .add charOp, .add charOp, .remove ⟨[.normal "f"], 2, 0, 7⟩,
    .add lineOp]

theorem delivered_once_backwards : ∃ q₀ q, SharQueue.new [.rootDir, .normal "r"]
    (.ok [.file "f" (.ok ['a', 'b'])]) 1 = some (.ok q₀) ∧
    backwards.foldlM deliver q₀ = some q ∧ DeliveredOnce q₀ backwards q := by
  have hq : ∃ q₀, SharQueue.new [.rootDir, .normal "r"] (.ok [.file "f" (.ok ['a', 'b'])]) 1 =
      some (.ok q₀) ∧ q₀.counter = 2 ∧
      (∀ i ∈ backwards, route q₀ i = some ([], 0)) ∧ Known q₀ ([], 0) (1, 0) ∧
      Holds q₀ ([], 0) (2, 0) (.new 'b' 1 0) :=
    ⟨_, rfl, rfl, by decide, ⟨_, rfl, by decide⟩, ⟨_, rfl, _, rfl, rfl⟩⟩
  obtain ⟨q₀, hnew, hcounter, hroute, hknown, hb⟩ := hq
  have hline : Offers q₀ backwards ([], 0) (11, 1) (.new '\n' 1 0) :=
    ⟨lineOp, by decide, hroute _ (by decide), rfl, rfl⟩
  have hchar : Offers q₀ backwards ([], 0) (12, 1) (.new 'y' 11 1) :=
    ⟨charOp, by decide, hroute _ (by decide), rfl, rfl⟩
  have hadds : ∀ a, .add a ∈ backwards → a = charOp ∨ a = lineOp := by
    simp [backwards]
  have h : Deliveries q₀ backwards := by
    refine ⟨fun i hi => ⟨_, hroute i hi⟩, ?_, ?_, ?_, ?_, ?_⟩
    · intro a ha
      rcases hadds a ha with rfl | rfl <;> rfl
    · intro a b ha hb
      rcases hadds a ha with rfl | rfl <;> rcases hadds b hb with rfl | rfl <;> decide
    · rintro a ha ref ⟨f, hf, hin⟩
      have hle := (loaded_files hnew ref f hf).below _ hin
      rw [hcounter] at hle
      rcases hadds a ha with rfl | rfl <;> exact absurd hle (by decide)
    · intro a ha ref href
      rw [hroute _ ha, Option.some.injEq] at href
      subst href
      rcases hadds a ha with rfl | rfl
      · exact .offered hline (.known hknown)
      · exact .known hknown
    · intro r hr ref href
      rw [hroute _ hr, Option.some.injEq] at href
      subst href
      have hcases : r = ⟨[.normal "f"], 12, 1, 0⟩ ∨ r = ⟨[.normal "f"], 2, 0, 7⟩ := by
        simpa [backwards] using hr
      rcases hcases with rfl | rfl
      · exact ⟨_, Or.inr hchar, rfl, by decide⟩
      · exact ⟨_, Or.inl hb, rfl, by decide⟩
  obtain ⟨q, hq, hd⟩ := delivered_once hnew rfl h
  exact ⟨q₀, q, hnew, hq, hd⟩

end ExactlyOnce
