import Shario.DeliveryRuns
import Shario.QueueRuns
import Shario.GuardedRuns

/-! The keys of the backlogs: what an operation waits for is not there yet, in runs where
no IDE add lands under a waiting network operation, or the other way round. -/
namespace BacklogKeys

open CrdtTypes FileTree CharacterTree FilePlacement GuardedRuns FileSafety FileShape DirectoryTree
  ShareQueue WorklistDrain TreeCalls QueueSteps IdeSteps QueueRuns NetworkDelivery DeliveryRuns PathRouting

/-- The nearest live character at or above `y`. -/
def Nearest (m : Characters) (y a : Identity) : Prop :=
  Live m y ∧ a = y ∨ Tomb m y ∧ ∃ t, Anchor m y t a

/-- What the operation needs to find in the projection is there. -/
def Finds (f : SharFile) : FileOp → Prop
  | .add c => c.relation.parent ∈ f.characters → c.identity ∉ f.characters →
      (∀ a, Nearest f.characters c.relation.parent a → a = root ∨ a ∈ f.projection.flatten) ∧
      (c.relation.parent = root → isLineBreak c.relation.value = false →
        ∀ B, f.projection ≠ [] :: B)
  | .remove x => Live f.characters x → x ∈ f.projection.flatten

theorem finds_rule : FileRule Sound Finds where
  sound := fun _ hf => hf
  add := fun _ _ _ _ hf _ ha => sound_added hf ha
  lands := by
    intro f c o g _ hG hp hc ha
    obtain ⟨hnear, htop⟩ := hG hp hc
    cases ha with
    | orphan h => exact absurd hp h
    | duplicate _ h => exact absurd h hc
    | @unplaced t a _ _ hanchor hne hnot =>
      have ha : a = root ∨ a ∈ f.projection.flatten :=
        hnear a (hanchor.imp id fun h => ⟨h.1, t, h.2⟩)
      exact absurd (ha.resolve_left hne) hnot
    | char _ _ _ _ => exact ⟨_, rfl⟩
    | dropped _ hb hr he => exact absurd he (htop hr hb _)
    | line _ _ _ _ => exact ⟨_, rfl⟩
    | lineAbove _ _ _ _ => exact ⟨_, rfl⟩
  remove := fun _ _ _ _ hf hx _ hr => sound_removed hf hx hr
  falls := by
    intro f x o g _ hG hl hr
    cases hr with
    | unknown h => exact absurd hl.mem h
    | again h => exact absurd hl h.not_live
    | unplaced _ _ hnot => exact absurd (hG hl) hnot
    | char _ _ _ _ => exact ⟨_, rfl⟩
    | line _ _ _ _ _ => exact ⟨_, rfl⟩

def itemPath : NetworkOp → PathBuf
  | .add op => op.filePath
  | .remove op => op.filePath

/-- `path` is the path of a loaded file, and `find_file` routes it there. -/
def Names (q₀ : SharQueue) (path : PathBuf) : Prop :=
  ∃ ref f, q₀.tree.findFile path = some ref ∧ q₀.tree.getFile ref = some f ∧ f.filePath = path

/-- A network operation finds its place, and no IDE add waits for the character it adds. -/
def NetworkTimely (p : SharQueue) (item : NetworkOp) : Prop :=
  ∀ ref f, route p item = some ref → p.tree.getFile ref = some f → Finds f (fileOp item) ∧
    ∀ op, item = .add op → op.crdt.relation.parent ∈ f.characters →
      op.crdt.identity ∉ f.characters → ∀ w, Waits p.ideBacklog op.crdt.identity w →
        p.tree.findFile w.filePath ≠ some ref

/-- An IDE add finds its place, and no network operation waits for its character. -/
def IdeTimely (p : SharQueue) (op : IdeAdd) : Prop :=
  ∀ x parent ref f, p.ideParent op = some parent → p.tagIdentities.lookup op.tag = some x →
    p.tree.findFile op.filePath = some ref → p.tree.getFile ref = some f →
    Finds f (.add (ideCrdt op x parent)) ∧ (parent ∈ f.characters → x ∉ f.characters →
      ∀ w, Waits p.networkBacklog x w → route p w ≠ some ref)

/-- Every operation that the call tries finds its place, and none of the other kind waits for
the character that it adds. -/
def Timely (q : SharQueue) : QueueCall → Prop
  | .network first => ∀ p item, RetriedIn q first p item → NetworkTimely p item
  | .ideAdd op => ∀ p item, TriedIn q op p item → IdeTimely p item
  | .ideRemove op => NetworkTimely q (.remove op)

def callPath (q₀ : SharQueue) : QueueCall → PathBuf
  | .network item => q₀.toLocalPath (itemPath item)
  | .ideAdd op => op.filePath
  | .ideRemove op => op.filePath

/-- The network side; `work` is what is still to be tried, and `removed` are the targets of
the removes that have come in. -/
structure NetPart (q₀ : SharQueue) (removed : List (FileRef × Identity)) (work : List NetworkOp)
    (q : SharQueue) : Prop where
  routes : SameRoutes q₀.tree q.tree
  sound : AllFiles Sound q.tree
  waits : ∀ k i, Waits q.networkBacklog k i → Names q₀ (itemPath i) ∧
    ∀ ref, route q₀ i = some ref → ¬ Known q ref k
  items : ∀ i ∈ work, Names q₀ (q₀.toLocalPath (itemPath i))
  removes : ∀ ref x, (ref, x) ∈ removed → x ≠ root → Gone q ref x ∨ ∃ op, op.identity = x ∧
    route q₀ (.remove op) = some ref ∧ (Waits q.networkBacklog x (.remove op) ∨ .remove op ∈ work)

structure IdePart (q₀ : SharQueue) (work : List IdeAdd) (q : SharQueue) : Prop where
  waits : ∀ k op, Waits q.ideBacklog k op → Names q₀ op.filePath ∧
    ∀ ref, q₀.tree.findFile op.filePath = some ref → ¬ Known q ref k
  items : ∀ op ∈ work, Names q₀ op.filePath
  tagItems : ∀ tag op, Waits q.ideTagBacklog tag op → Names q₀ op.filePath
  tags : ∀ tag ∈ q.ideTagBacklog, tag ∉ q.tagIdentities

section Frame

variable {q₀ p p₂ : SharQueue} {removed : List (FileRef × Identity)} {work : List NetworkOp}
  {ideWork : List IdeAdd} {item : NetworkOp}

theorem idePart_frame (h : IdePart q₀ ideWork p) (hb : p₂.ideBacklog = p.ideBacklog)
    (ht : p₂.ideTagBacklog = p.ideTagBacklog) (hi : p₂.tagIdentities = p.tagIdentities)
    (hknown : ∀ r y, Known p₂ r y → Known p r y ∨
      ∀ w, Waits p.ideBacklog y w → q₀.tree.findFile w.filePath ≠ some r) :
    IdePart q₀ ideWork p₂ := by
  refine ⟨fun k op hw => ?_, h.items, ?_, ?_⟩
  · rw [hb] at hw
    obtain ⟨hn, hk⟩ := h.waits k op hw
    refine ⟨hn, fun ref hr hkn => ?_⟩
    rcases hknown ref k hkn with hkn | hkn
    · exact hk ref hr hkn
    · exact hkn op hw hr
  · rw [ht]
    exact h.tagItems
  · rw [ht, hi]
    exact h.tags

theorem netPart_frame (h : NetPart q₀ removed work p) (hroutes : SameRoutes p.tree p₂.tree)
    (hsound : AllFiles Sound p₂.tree) (hb : p₂.networkBacklog = p.networkBacklog)
    (hgone : ∀ r y, Gone p r y → Gone p₂ r y)
    (hknown : ∀ r y, Known p₂ r y → Known p r y ∨
      ∀ w, Waits p.networkBacklog y w → route q₀ w ≠ some r) : NetPart q₀ removed work p₂ := by
  refine ⟨h.routes.trans hroutes, hsound, fun k i hw => ?_, h.items, fun ref x hx hne => ?_⟩
  · rw [hb] at hw
    obtain ⟨hn, hk⟩ := h.waits k i hw
    refine ⟨hn, fun ref hr hkn => ?_⟩
    rcases hknown ref k hkn with hkn | hkn
    · exact hk ref hr hkn
    · exact hkn i hw hr
  · rw [hb]
    exact (h.removes ref x hx hne).imp (hgone ref x) id

theorem retried_root (h : Retried p item p₂) (hr : subject item = root) :
    p₂.tree = p.tree ∧ p₂.networkBacklog = p.networkBacklog ∧
      p₂.networkWorklist = p.networkWorklist := by
  cases h with
  | rootAdd _ => exact ⟨rfl, rfl, rfl⟩
  | landed hne _ => exact absurd hr hne
  | repeated hne _ => exact absurd hr hne
  | early hne _ => exact absurd hr hne
  | rootRemove _ => exact ⟨rfl, rfl, rfl⟩
  | fallen hne _ => exact absurd hr hne
  | again hne _ => exact absurd hr hne
  | earlyRemove hne _ => exact absurd hr hne

end Frame

section Steps

variable {dirPath : PathBuf} {q₀ p p₂ : SharQueue} {removed : List (FileRef × Identity)}
  {item : NetworkOp}

theorem names_absolute (hq : Replica dirPath q₀) {path : PathBuf} (h : Names q₀ path) :
    isAbsolute path = true := by
  obtain ⟨ref, f, _, hf, rfl⟩ := h
  obtain ⟨r, hr, _⟩ := replica_file hq hf
  have habs := hq.absolute
  rw [hr]
  cases dirPath with
  | nil => exact absurd habs (by simp [isAbsolute])
  | cons c rest => cases c <;> simp_all [isAbsolute]

theorem names_local (hq : Replica dirPath q₀) {path : PathBuf} (h : Names q₀ path) :
    q₀.toLocalPath path = path := joinPath_absolute (names_absolute hq h)

theorem itemPath_local (q : SharQueue) (i : NetworkOp) :
    itemPath (localItem q i) = q.toLocalPath (itemPath i) := by
  cases i <;> rfl

theorem route_path (q : SharQueue) (i : NetworkOp) :
    route q i = q.tree.findFile (q.toLocalPath (itemPath i)) := by
  cases i <;> rfl

theorem replica_absolute (hq : Replica dirPath q₀) : isAbsolute q₀.root = true := by
  obtain ⟨read, peer, hd, hnew⟩ := hq.loaded
  rw [SharQueue.root, (new_placed _ _ _ _ _ hd (new_tree hnew).1).2]
  exact hq.absolute

theorem removes_step
    (h : ∀ ref x, (ref, x) ∈ removed → x ≠ root → Gone p ref x ∨ ∃ op, op.identity = x ∧
      route q₀ (.remove op) = some ref ∧
        (Waits p.networkBacklog x (.remove op) ∨ .remove op ∈ item :: p.networkWorklist))
    (hgone : ∀ r x, Gone p r x → Gone p₂ r x)
    (hwaits : ∀ k i, Waits p.networkBacklog k i →
      Waits p₂.networkBacklog k i ∨ i ∈ p₂.networkWorklist)
    (hwork : ∀ i ∈ p.networkWorklist, i ∈ p₂.networkWorklist)
    (hitem : ∀ op, item = .remove op → ∀ r, route q₀ item = some r → Gone p₂ r op.identity ∨
      ∃ op', op'.identity = op.identity ∧ route q₀ (.remove op') = some r ∧
        Waits p₂.networkBacklog op.identity (.remove op')) :
    ∀ ref x, (ref, x) ∈ removed → x ≠ root → Gone p₂ ref x ∨ ∃ op, op.identity = x ∧
      route q₀ (.remove op) = some ref ∧
        (Waits p₂.networkBacklog x (.remove op) ∨ .remove op ∈ p₂.networkWorklist) := by
  intro ref x hx hne
  rcases h ref x hx hne with hg | ⟨op, rfl, hop, hin⟩
  · exact Or.inl (hgone ref x hg)
  · rcases hin with hin | hin
    · exact Or.inr ⟨op, rfl, hop, hwaits _ _ hin⟩
    · rcases List.mem_cons.mp hin with he | hin
      · refine (hitem op he.symm ref (he ▸ hop)).imp id fun ⟨op', hid, hr, hw⟩ => ?_
        exact ⟨op', hid, hr, Or.inl hw⟩
      · exact Or.inr ⟨op, rfl, hop, Or.inr (hwork _ hin)⟩

theorem net_step (hq : Replica dirPath q₀)
    (h : NetPart q₀ removed (item :: p.networkWorklist) p) (ht : NetworkTimely p item)
    (hr : Retried p item p₂) : NetPart q₀ removed p₂.networkWorklist p₂ ∧
      ∀ r y, Known p₂ r y → Known p r y ∨
        ∀ w, Waits p.ideBacklog y w → q₀.tree.findFile w.filePath ≠ some r := by
  have hrest : ∀ i ∈ p.networkWorklist, Names q₀ (q₀.toLocalPath (itemPath i)) :=
    fun i hi => h.items i (List.mem_cons_of_mem _ hi)
  by_cases hroot : subject item = root
  · obtain ⟨htree, hb, hw⟩ := retried_root hr hroot
    have hsame : SameKnowledge p p₂ := sameKnowledge_tree htree
    refine ⟨⟨htree ▸ h.routes, htree ▸ h.sound, fun k i hi => ?_, hw ▸ hrest, fun ref x hx hne => ?_⟩,
      fun r y hy => Or.inl ((known_congr hsame.holds r y).mp hy)⟩
    · rw [hb] at hi
      obtain ⟨hn, hk⟩ := h.waits k i hi
      exact ⟨hn, fun ref href hkn => hk ref href ((known_congr hsame.holds ref k).mp hkn)⟩
    · rw [hsame.gone, hb, hw]
      refine (h.removes ref x hx hne).imp id fun ⟨op, hop, hr, hin⟩ =>
        ⟨op, hop, hr, hin.imp id fun hin => ?_⟩
      rcases List.mem_cons.mp hin with he | hin
      · rw [← he] at hroot
        exact absurd (hop.symm.trans hroot) hne
      · exact hin
  obtain ⟨ref, f₀, href, hf₀, _⟩ := h.items item List.mem_cons_self
  have hrt : route q₀ item = some ref := (route_path q₀ item).trans href
  obtain ⟨hlocal, hroute⟩ := local_same h.routes item
  have hrp : route p item = some ref := hroute.trans hrt
  have huniq : ∀ r, route q₀ item = some r → r = ref := by
    intro r hrr
    rw [hrt, Option.some.injEq] at hrr
    exact hrr.symm
  have hroutes := h.routes.trans (retried_tree hr)
  have hG : ∀ f, p.tree.getFile ref = some f → Finds f (fileOp item) :=
    fun f hf => (ht ref f hrp hf).1
  have hsound := retried_files finds_rule h.sound hrp hroot hG hr
  cases retried_effect finds_rule h.sound hrp hroot hG hr with
  | idle hdone hk hb hw _ =>
    refine ⟨⟨hroutes, hsound, fun k i hi => ?_, hw ▸ hrest, ?_⟩,
      fun r y hy => Or.inl ((known_congr hk.holds r y).mp hy)⟩
    · rw [hb] at hi
      obtain ⟨hn, hkn⟩ := h.waits k i hi
      exact ⟨hn, fun r hrr hkr => hkn r hrr ((known_congr hk.holds r k).mp hkr)⟩
    · refine removes_step h.removes (fun r x hg => (hk.gone r x).mpr hg) (fun k i hi => ?_) ?_ ?_
      · rw [hb]
        exact Or.inl hi
      · rw [hw]
        exact fun i hi => hi
      · rintro op rfl r hop
        rw [huniq r hop]
        exact Or.inl ((hk.gone ref op.identity).mpr hdone)
  | waits hnot hk hb hw _ =>
    refine ⟨⟨hroutes, hsound, fun k i hi => ?_, hw ▸ hrest, ?_⟩,
      fun r y hy => Or.inl ((known_congr hk.holds r y).mp hy)⟩
    · rw [hb, waits_push] at hi
      rcases hi with hi | ⟨rfl, rfl⟩
      · obtain ⟨hn, hkn⟩ := h.waits k i hi
        exact ⟨hn, fun r hrr hkr => hkn r hrr ((known_congr hk.holds r k).mp hkr)⟩
      · rw [hlocal, itemPath_local]
        refine ⟨h.items item List.mem_cons_self, fun r hrr hkr => ?_⟩
        have hr' : r = ref :=
          huniq r ((local_facts (localItem_twice (replica_absolute hq) item)).1 ▸ hrr)
        exact hnot (hr' ▸ (known_congr hk.holds r (key item)).mp hkr)
    · refine removes_step h.removes (fun r x hg => (hk.gone r x).mpr hg) (fun k i hi => ?_) ?_ ?_
      · rw [hb, waits_push]
        exact Or.inl (Or.inl hi)
      · rw [hw]
        exact fun i hi => hi
      · rintro op rfl r hop
        refine Or.inr ⟨localRemove q₀ op, rfl, ?_, ?_⟩
        · exact (local_facts (localItem_twice (replica_absolute hq) (.remove op))).1.trans hop
        · rw [hb, waits_push]
          exact Or.inr ⟨rfl, hlocal.symm⟩
  | @lands op shown he hpar hnew hholds hgone _ hb hw _ _ _ =>
    subst he
    have hknown : ∀ r y, Known p₂ r y → Known p r y ∨ r = ref ∧ y = op.crdt.identity := by
      intro r y hy
      obtain ⟨s, hs⟩ := known_iff_holds.mp hy
      exact ((hholds r y s).mp hs).imp (fun hs => known_iff_holds.mpr ⟨s, hs⟩)
        fun hs => ⟨hs.1, hs.2.1⟩
    refine ⟨⟨hroutes, hsound, fun k i hi => ?_, fun i hi => ?_, ?_⟩, fun r y hy => ?_⟩
    · obtain ⟨hi, hne⟩ := (hb k i).mp hi
      obtain ⟨hn, hkn⟩ := h.waits k i hi
      refine ⟨hn, fun r hrr hkr => ?_⟩
      rcases hknown r k hkr with hkr | ⟨_, hk⟩
      · exact hkn r hrr hkr
      · exact hne hk
    · rcases (hw i).mp hi with hi | hi
      · exact hrest i hi
      · obtain ⟨hn, _⟩ := h.waits _ i hi
        rw [names_local hq hn]
        exact hn
    · refine removes_step h.removes (fun r x hg => (hgone r x).mpr (Or.inl hg)) (fun k i hi => ?_)
        (fun i hi => (hw i).mpr (Or.inl hi)) fun rop hrop => by simp at hrop
      by_cases hk : k = subject (.add op)
      · exact Or.inr ((hw i).mpr (Or.inr (hk ▸ hi)))
      · exact Or.inl ((hb k i).mpr ⟨hi, hk⟩)
    · rcases hknown r y hy with hy | ⟨rfl, rfl⟩
      · exact Or.inl hy
      · obtain ⟨f, hf, hp⟩ := hpar
        refine Or.inr fun w hwait hwr => ?_
        refine (ht r f hrp hf).2 op rfl hp (fun hx => hnew ⟨f, hf, hx⟩) w hwait ?_
        rw [h.routes.findFile]
        exact hwr
  | @falls op he hpar hnew hholds hgone hb hw _ =>
    subst he
    refine ⟨⟨hroutes, hsound, fun k i hi => ?_, hw ▸ hrest, ?_⟩,
      fun r y hy => Or.inl ((known_congr hholds r y).mp hy)⟩
    · rw [hb] at hi
      obtain ⟨hn, hkn⟩ := h.waits k i hi
      exact ⟨hn, fun r hrr hkr => hkn r hrr ((known_congr hholds r k).mp hkr)⟩
    · refine removes_step h.removes (fun r x hg => (hgone r x).mpr (Or.inl hg))
        (fun k i hi => ?_) ?_ ?_
      · rw [hb]
        exact Or.inl hi
      · rw [hw]
        exact fun i hi => hi
      · intro rop hrop r hop
        rw [NetworkOp.remove.injEq] at hrop
        subst hrop
        exact Or.inl ((hgone r op.identity).mpr (Or.inr ⟨huniq r hop, rfl⟩))

theorem untagged_new {op : IdeAdd} {tag : ℕ} (hp : p.ideParent op = none)
    (htag : op.parentTag = some tag) : tag ∉ p.tagIdentities := by
  have hl : p.tagIdentities.lookup tag = none := by
    unfold SharQueue.ideParent at hp
    split at hp
    · simp at hp
    · rwa [htag, Option.bind_some] at hp
  exact Finmap.lookup_eq_none.mp hl

theorem ide_step {op : IdeAdd} (hroutes : SameRoutes q₀.tree p.tree) (hsound : AllFiles Sound p.tree)
    (h : IdePart q₀ (op :: p.ideWorklist) p) (ht : IdeTimely p op) (hr : RetriedIde p op p₂) :
    IdePart q₀ p₂.ideWorklist p₂ ∧ SameRoutes p.tree p₂.tree ∧ AllFiles Sound p₂.tree ∧
      p₂.networkBacklog = p.networkBacklog ∧ (∀ r y, Gone p r y → Gone p₂ r y) ∧
      ∀ r y, Known p₂ r y → Known p r y ∨
        ∀ w, Waits p.networkBacklog y w → route q₀ w ≠ some r := by
  have hrest : ∀ i ∈ p.ideWorklist, Names q₀ i.filePath :=
    fun i hi => h.items i (List.mem_cons_of_mem _ hi)
  have hname := h.items op List.mem_cons_self
  obtain ⟨ref, f₀, href, hf₀, _⟩ := id hname
  have hrp : p.tree.findFile op.filePath = some ref := (hroutes.findFile _).trans href
  have hsame : ∀ q' : SharQueue, SameKnowledge p q' → ∀ k i, Waits p.ideBacklog k i →
      Names q₀ i.filePath ∧ ∀ r, q₀.tree.findFile i.filePath = some r → ¬ Known q' r k := by
    intro q' hk k i hi
    obtain ⟨hn, hkn⟩ := h.waits k i hi
    exact ⟨hn, fun r hrr hkr => hkn r hrr ((known_congr hk.holds r k).mp hkr)⟩
  cases hr with
  | held hh =>
    cases hh with
    | @untagged tag hp htag =>
      refine ⟨⟨h.waits, hrest, fun k i hi => ?_, fun k hk => ?_⟩, sameRoutes_refl _, hsound, rfl,
        fun _ _ hg => hg, fun _ _ hy => Or.inl hy⟩
      · rcases waits_push.mp hi with hi | ⟨rfl, rfl⟩
        · exact h.tagItems k i hi
        · exact hname
      · rcases (Finmap.mem_insert.mp hk : k = tag ∨ k ∈ p.ideTagBacklog) with rfl | hk
        · exact untagged_new hp htag
        · exact h.tags k hk
    | @repeated x parent t hp hx ha =>
      have hG := fun f hf => (ht x parent ref f hp hx hrp hf).1
      rcases added_knowledge finds_rule hsound hrp hG ha with ⟨_, ho, _⟩ | ⟨_, _, hk⟩ | ⟨_, ho, _⟩
      · exact absurd ho (by simp)
      · exact ⟨⟨hsame _ (hk _ rfl), hrest, h.tagItems, h.tags⟩, ha.routes, ha.sound hsound, rfl,
          fun r y hg => ((hk (withTree p t) rfl).gone r y).mpr hg,
          fun r y hy => Or.inl ((known_congr (hk (withTree p t) rfl).holds r y).mp hy)⟩
      · exact absurd ho (by simp)
    | @early x parent e t hp hx ha =>
      have hG := fun f hf => (ht x parent ref f hp hx hrp hf).1
      rcases added_knowledge finds_rule hsound hrp hG ha with ⟨_, ho, _⟩ | ⟨ho, _⟩ | ⟨_, _, hnot, hk⟩
      · exact absurd ho (by simp)
      · exact absurd ho (by simp)
      · refine ⟨⟨fun k i hi => ?_, hrest, h.tagItems, h.tags⟩, ha.routes, ha.sound hsound, rfl,
          fun r y hg => ((hk (withTree p t) rfl).gone r y).mpr hg,
          fun r y hy => Or.inl ((known_congr (hk (withTree p t) rfl).holds r y).mp hy)⟩
        rcases waits_push.mp hi with hi | ⟨rfl, rfl⟩
        · exact hsame _ (hk _ rfl) k i hi
        · refine ⟨hname, fun r hrr hkr => ?_⟩
          have hr : r = ref := Option.some.inj (hrr.symm.trans href)
          exact hnot (hr ▸ (known_congr (hk (withTree p t) rfl).holds r k).mp hkr)
  | @landed x parent pos t hl =>
    have hG := fun f hf => (ht x parent ref f hl.resolved hl.tagged hrp hf).1
    rcases added_knowledge finds_rule hsound hrp hG hl.added with
      ⟨_, _, hpar, hnew, hk⟩ | ⟨ho, _⟩ | ⟨_, ho, _⟩
    · obtain ⟨hholds, hgone⟩ := hk _ ((fire_tree _ _).trans (queueIde_tree (withTree p t) x) :
        (((withTree p t).queueIdeBacklog x).fire
          (ideShown ((withTree p t).queueIdeBacklog x) op x parent pos)).tree = t)
      have hknown : ∀ r y, Known (((withTree p t).queueIdeBacklog x).fire
          (ideShown ((withTree p t).queueIdeBacklog x) op x parent pos)) r y →
          Known p r y ∨ r = ref ∧ y = x := by
        intro r y hy
        obtain ⟨s, hs⟩ := known_iff_holds.mp hy
        exact ((hholds r y s).mp hs).imp (fun hs => known_iff_holds.mpr ⟨s, hs⟩)
          fun hs => ⟨hs.1, hs.2.1⟩
      refine ⟨⟨fun k i hi => ?_, fun i hi => ?_, fun k i hi => ?_, fun k hk => ?_⟩, ?_, ?_,
        queueIde_network _ _, fun r y hg => (hgone r y).mpr (Or.inl hg), fun r y hy => ?_⟩
      · obtain ⟨hi, hne⟩ := (queueIde_backlog (withTree p t) x k i).mp hi
        obtain ⟨hn, hkn⟩ := h.waits k i hi
        refine ⟨hn, fun r hrr hkr => ?_⟩
        rcases hknown r k hkr with hkr | ⟨_, hkx⟩
        · exact hkn r hrr hkr
        · exact hne hkx
      · rcases (queueIde_worklist (withTree p t) x i).mp hi with hi | hi
        · exact hrest i hi
        · exact (h.waits x i hi).1
      · rw [SharQueue.fire, queueIde_tagBacklog] at hi
        exact h.tagItems k i hi
      · rw [SharQueue.fire, queueIde_tagBacklog] at hk
        rw [SharQueue.fire, queueIde_tags]
        exact h.tags k hk
      · rw [fire_tree, queueIde_tree]
        exact hl.added.routes
      · rw [fire_tree, queueIde_tree]
        exact hl.added.sound hsound
      · rcases hknown r y hy with hy | ⟨rfl, rfl⟩
        · exact Or.inl hy
        · obtain ⟨f, hf, hp⟩ := hpar
          refine Or.inr fun w hwait hwr => ?_
          refine (ht _ parent _ f hl.resolved hl.tagged hrp hf).2 hp (fun hx => hnew ⟨f, hf, hx⟩) w
            hwait ?_
          rw [(local_same hroutes w).2]
          exact hwr
    · exact absurd ho (by simp)
    · exact absurd ho (by simp)

end Steps

def removals (q₀ : SharQueue) : QueueCall → List (FileRef × Identity)
  | .network (.remove op) => (route q₀ (.remove op)).toList.map (·, op.identity)
  | .ideRemove op => (route q₀ (.remove op)).toList.map (·, op.identity)
  | _ => []

structure Backlogged (q₀ : SharQueue) (removed : List (FileRef × Identity)) (q : SharQueue) :
    Prop where
  net : NetPart q₀ removed q.networkWorklist q
  ide : IdePart q₀ q.ideWorklist q

section Calls

variable {dirPath : PathBuf} {q₀ q q' p : SharQueue} {removed : List (FileRef × Identity)}
  {work : List NetworkOp} {ideWork : List IdeAdd}

theorem netPart_congr (h : NetPart q₀ removed work q) (htree : p.tree = q.tree)
    (hb : p.networkBacklog = q.networkBacklog) : NetPart q₀ removed work p :=
  netPart_frame h (htree ▸ sameRoutes_refl _) (htree ▸ h.sound) hb
    (fun r y => ((sameKnowledge_tree htree).gone r y).mpr)
    fun r y hy => Or.inl ((known_congr (sameKnowledge_tree htree).holds r y).mp hy)

theorem idePart_congr (h : IdePart q₀ ideWork q) (htree : p.tree = q.tree)
    (hb : p.ideBacklog = q.ideBacklog) (ht : p.ideTagBacklog = q.ideTagBacklog)
    (hi : p.tagIdentities = q.tagIdentities) : IdePart q₀ ideWork p :=
  idePart_frame h hb ht hi
    fun r y hy => Or.inl ((known_congr (sameKnowledge_tree htree).holds r y).mp hy)

theorem netPart_handed {item : NetworkOp} (h : NetPart q₀ removed q.networkWorklist q)
    (hn : Names q₀ (q₀.toLocalPath (itemPath item))) (hw : q.networkWorklist = []) :
    NetPart q₀ (removed ++ removals q₀ (.network item)) [item] q := by
  refine ⟨h.routes, h.sound, h.waits, fun i hi => ?_, fun ref x hx hne => ?_⟩
  · rw [List.mem_singleton.mp hi]
    exact hn
  · rcases List.mem_append.mp hx with hx | hx
    · refine (h.removes ref x hx hne).imp id fun ⟨op, hop, hr, hin⟩ => ⟨op, hop, hr, ?_⟩
      rw [hw] at hin
      exact hin.imp id fun hin => absurd hin (by simp)
    · cases item with
      | add op => simp [removals] at hx
      | remove op =>
        simp only [removals, List.mem_map, Option.mem_toList, Prod.mk.injEq] at hx
        obtain ⟨r, hr, rfl, rfl⟩ := hx
        exact Or.inr ⟨op, rfl, hr, Or.inr (by simp)⟩

theorem network_step (hq : Replica dirPath q₀) {item : NetworkOp} (h : Backlogged q₀ removed q)
    (hidle : Idle q) (hn : Names q₀ (q₀.toLocalPath (itemPath item)))
    (ht : Timely q (.network item)) (hq' : deliver q item = some q') :
    Backlogged q₀ (removed ++ removals q₀ (.network item)) q' ∧ Idle q' := by
  have hstep : ∀ p i p₁ p₂,
      Backlogged q₀ (removed ++ removals q₀ (.network item)) p ∧ p.ideWorklist = [] →
      p.popNetwork = some (i, p₁) → RetriedIn q item p₁ i → Retried p₁ i p₂ →
      Backlogged q₀ (removed ++ removals q₀ (.network item)) p₂ ∧ p₂.ideWorklist = [] := by
    rintro p i p₁ p₂ ⟨⟨hnet, hide⟩, hidle'⟩ hpop hin hr
    obtain ⟨rest, hl, rfl⟩ := pop_eq hpop
    rw [hl] at hnet
    obtain ⟨hnet₂, hknown⟩ := net_step hq
      (netPart_congr hnet rfl rfl : NetPart q₀ _ (i :: rest) { p with networkWorklist := rest })
      (ht _ i hin) hr
    obtain ⟨hib, hit, hii⟩ := retried_ideSide hr
    refine ⟨⟨hnet₂, ?_⟩, (retried_ide hr).trans hidle'⟩
    rw [retried_ide hr]
    exact idePart_frame (idePart_congr hide rfl rfl rfl rfl) hib hit hii hknown
  obtain ⟨⟨hb, hw⟩, hn'⟩ := deliver_keeps (fun p hp => hp.1.net.sound) hstep hidle.network
    ⟨⟨netPart_congr (netPart_handed h.net hn hidle.network) rfl rfl,
      idePart_congr h.ide rfl rfl rfl rfl⟩, hidle.ide⟩ hq'
  exact ⟨hb, hn', hw⟩

theorem enlisted_network (q : SharQueue) (op : IdeAdd) (n : ℕ) :
    (enlisted q op n).networkBacklog = q.networkBacklog := by
  unfold enlisted SharQueue.queueTagBacklog
  split <;> rfl

theorem enlisted_ide {op : IdeAdd} {n : ℕ} (h : IdePart q₀ q.ideWorklist q)
    (hn : Names q₀ op.filePath) :
    IdePart q₀ (op :: (enlisted q op n).ideWorklist) (enlisted q op n) := by
  have hwaits : ∀ p : SharQueue, p.tree = q.tree → ∀ k i, Waits q.ideBacklog k i →
      Names q₀ i.filePath ∧ ∀ r, q₀.tree.findFile i.filePath = some r → ¬ Known p r k := by
    intro p hp k i hi
    obtain ⟨hni, hk⟩ := h.waits k i hi
    exact ⟨hni, fun r hr hkn =>
      hk r hr ((known_congr (sameKnowledge_tree hp).holds r k).mp hkn)⟩
  have hold : ∀ i ∈ op :: q.ideWorklist, Names q₀ i.filePath := by
    intro i hi
    rcases List.mem_cons.mp hi with rfl | hi
    · exact hn
    · exact h.items i hi
  cases hl : q.ideTagBacklog.lookup op.tag with
  | none =>
    have he : enlisted q op n = q.confirmIde op.tag n := by
      simp [enlisted, SharQueue.queueTagBacklog, SharQueue.confirmIde, SharQueue.fire, hl]
    rw [he]
    refine ⟨hwaits _ rfl, hold, h.tagItems, fun tag ht hin => ?_⟩
    rcases (Finmap.mem_insert.mp hin : tag = op.tag ∨ tag ∈ q.tagIdentities) with rfl | hin
    · exact Finmap.lookup_eq_none.mp hl ht
    · exact h.tags tag ht hin
  | some l =>
    have he : enlisted q op n = { q.confirmIde op.tag n with
        ideTagBacklog := q.ideTagBacklog.erase op.tag, ideWorklist := q.ideWorklist ++ l } := by
      simp [enlisted, SharQueue.queueTagBacklog, SharQueue.confirmIde, SharQueue.fire, hl]
    rw [he]
    refine ⟨hwaits _ rfl, fun i hi => ?_, fun tag i hi => ?_, fun tag ht hin => ?_⟩
    · rw [← List.cons_append, List.mem_append] at hi
      rcases hi with hi | hi
      · exact hold i hi
      · exact h.tagItems op.tag i ⟨l, hl, hi⟩
    · exact h.tagItems tag i (waits_erase.mp hi).1
    · obtain ⟨hne, ht⟩ := Finmap.mem_erase.mp ht
      rcases (Finmap.mem_insert.mp hin : tag = op.tag ∨ tag ∈ q.tagIdentities) with rfl | hin
      · exact hne rfl
      · exact h.tags tag ht hin

theorem ideAdd_step {op : IdeAdd} (h : Backlogged q₀ removed q)
    (hidle : Idle q) (hn : Names q₀ op.filePath) (ht : Timely q (.ideAdd op))
    (hq' : q.addIdeOperation op = some q') : Backlogged q₀ removed q' ∧ Idle q' := by
  have hstep : ∀ p p₁ p₂ i, Backlogged q₀ removed p → p.networkWorklist = [] →
      IdePart q₀ (i :: p₁.ideWorklist) p₁ → p₁.tree = p.tree →
      p₁.networkBacklog = p.networkBacklog → p₁.networkWorklist = p.networkWorklist →
      TriedIn q op p₁ i → RetriedIde p₁ i p₂ →
      Backlogged q₀ removed p₂ ∧ p₂.networkWorklist = [] := by
    intro p p₁ p₂ i hp hw hide htree hb hl hin hr
    have hnet : NetPart q₀ removed p₁.networkWorklist p₁ := by
      rw [hl]
      exact netPart_congr hp.net htree hb
    obtain ⟨hide₂, hroutes, hsound, hb₂, hgone, hknown⟩ :=
      ide_step hnet.routes hnet.sound hide (ht p₁ i hin) hr
    refine ⟨⟨?_, hide₂⟩, (retriedIde_network hr).trans (hl.trans hw)⟩
    rw [retriedIde_network hr]
    exact netPart_frame hnet hroutes hsound hb₂ hgone hknown
  have hpopped : ∀ p i p₁ p₂, Backlogged q₀ removed p ∧ p.networkWorklist = [] →
      p.popIde = some (i, p₁) → TriedIn q op p₁ i → RetriedIde p₁ i p₂ →
      Backlogged q₀ removed p₂ ∧ p₂.networkWorklist = [] := by
    intro p i p₁ p₂ hp hpop hin hr
    obtain ⟨rest, hl, rfl⟩ := popIde_eq hpop
    have hide : IdePart q₀ (i :: rest) p := hl ▸ hp.1.ide
    exact hstep p { p with ideWorklist := rest } p₂ i hp.1 hp.2 (idePart_congr hide rfl rfl rfl rfl)
      rfl rfl rfl hin hr
  obtain ⟨⟨hb, hw⟩, hn'⟩ := addIde_keeps
    (J := fun p => Backlogged q₀ removed p ∧ p.networkWorklist = []) (fun p hp => hp.1.net.sound)
    (fun p l hp => ⟨⟨netPart_congr hp.1.net rfl rfl, idePart_congr hp.1.ide rfl rfl rfl rfl⟩, hp.2⟩)
    (fun n q₁ hn₁ hr => hstep q _ q₁ op h hidle.network (enlisted_ide h.ide hn)
      (enlisted_tree _ _ _) (enlisted_network _ _ _) (enlisted_networkWorklist _ _ _) (.own hn₁) hr)
    hpopped h.net.sound hq'
  exact ⟨hb, hw, hn'⟩

theorem local_path (h : SameRoutes q₀.tree q.tree) (path : PathBuf) :
    q.toLocalPath path = q₀.toLocalPath path := by
  rw [SharQueue.toLocalPath, SharQueue.toLocalPath, SharQueue.root, SharQueue.root, h.dirName]

theorem ideRemove_retried {op : Remove} (hs : AllFiles Sound q.tree)
    (hp : q.toLocalPath op.filePath = op.filePath) (h : q.removeIdeOperation op = some q') :
    ∃ p l, Retried q (.remove op) p ∧ p.networkWorklist = q.networkWorklist ∧ q' = unlogged p l := by
  have hlocal : localRemove q op = op := by simp [localRemove, hp]
  have hremoved : ∀ {o t}, TreeRemoved q.tree op.filePath op.identity o t →
      TreeRemoved q.tree (localRemove q op).filePath op.identity o t := by
    intro o t ht
    rw [hlocal]
    exact ht
  rcases removeIde_cases hs op with ⟨q₁, he, hr⟩ | ⟨he, _⟩
  · have hq : q' = q₁ := Option.some.inj (h.symm.trans he)
    subst hq
    cases hr with
    | rootRemove hx => exact ⟨_, q.fired, .rootRemove hx, rfl, rfl⟩
    | fallen hx ht => exact ⟨_, _, .fallen hx (hremoved ht), rfl, rfl⟩
    | again hx ht => exact ⟨_, q.fired, .again hx (hremoved ht), rfl, rfl⟩
    | early hx ht =>
      refine ⟨_, q.fired, .earlyRemove hx (hremoved ht), rfl, ?_⟩
      rw [hlocal]
      rfl
  · exact absurd (he.symm.trans h) (by simp)

theorem ideRemove_step (hq : Replica dirPath q₀) {op : Remove} (h : Backlogged q₀ removed q)
    (hidle : Idle q) (hn : Names q₀ op.filePath) (ht : Timely q (.ideRemove op))
    (hq' : q.removeIdeOperation op = some q') :
    Backlogged q₀ (removed ++ removals q₀ (.ideRemove op)) q' ∧ Idle q' := by
  obtain ⟨p, l, hr, hwn, rfl⟩ := ideRemove_retried h.net.sound
    ((local_path h.net.routes op.filePath).trans (names_local hq hn)) hq'
  have hitem : NetPart q₀ (removed ++ removals q₀ (.ideRemove op))
      (.remove op :: q.networkWorklist) q := by
    have hhanded : NetPart q₀ (removed ++ removals q₀ (.network (.remove op))) [.remove op] q :=
      netPart_handed h.net ((names_local hq hn).symm ▸ hn) hidle.network
    rw [hidle.network]
    exact hhanded
  obtain ⟨hnet, hknown⟩ := net_step hq hitem ht hr
  obtain ⟨hib, hit, hii⟩ := retried_ideSide hr
  have hide := idePart_frame h.ide hib hit hii hknown
  have hw : p.ideWorklist = q.ideWorklist := retried_ide hr
  refine ⟨⟨netPart_congr hnet rfl rfl, ?_⟩, hwn.trans hidle.network, hw.trans hidle.ide⟩
  exact idePart_congr (hw ▸ hide : IdePart q₀ p.ideWorklist p) rfl rfl rfl rfl

end Calls

/-- The path under which a loaded file is known. -/
def Loaded (q₀ : SharQueue) (path : PathBuf) : Prop :=
  ∃ ref f, q₀.tree.getFile ref = some f ∧ f.filePath = path

/-- The identity is in the characters of the file of that path. -/
def HasCharacter (q : SharQueue) (path : PathBuf) (x : Identity) : Prop :=
  ∃ ref f, q.tree.getFile ref = some f ∧ f.filePath = path ∧ x ∈ f.characters

def Tombstoned (q : SharQueue) (path : PathBuf) (x : Identity) : Prop :=
  ∃ ref f, q.tree.getFile ref = some f ∧ f.filePath = path ∧ Tomb f.characters x

def target (q₀ : SharQueue) : QueueCall → Option (PathBuf × Identity)
  | .network (.remove op) => some (q₀.toLocalPath op.filePath, op.identity)
  | .ideRemove op => some (op.filePath, op.identity)
  | _ => none

/-- No operation waits for what is there. -/
structure Awaiting (q₀ : SharQueue) (calls : List QueueCall) (q : SharQueue) : Prop where
  network : ∀ k i, Waits q.networkBacklog k i → ¬ HasCharacter q (itemPath i) k
  ide : ∀ k op, Waits q.ideBacklog k op → ¬ HasCharacter q op.filePath k
  tags : ∀ tag ∈ q.ideTagBacklog, tag ∉ q.tagIdentities
  removes : ∀ call ∈ calls, ∀ path x, target q₀ call = some (path, x) → x ≠ root →
    HasCharacter q path x → Tombstoned q path x

def Step (q : SharQueue) (call : QueueCall) (q' : SharQueue) : Prop := call.apply q = some q'

/-- Distinct tags, and IDE removes of characters that the IDE has been told of. -/
def Admitted (q : SharQueue) : QueueCall → Prop
  | .ideAdd op => op.tag ∉ q.tagIdentities
  | .ideRemove op => (∃ tag, q.tagIdentities.lookup tag = some op.identity) ∨
      HasCharacter q op.filePath op.identity
  | .network _ => True

section Runs

variable {dirPath : PathBuf} {q₀ q q' : SharQueue} {removed : List (FileRef × Identity)}
  {calls : List QueueCall}

theorem call_step (hq : Replica dirPath q₀) {call : QueueCall} (h : Backlogged q₀ removed q)
    (hidle : Idle q) (hn : Names q₀ (callPath q₀ call)) (ht : Timely q call)
    (hq' : Step q call q') : Backlogged q₀ (removed ++ removals q₀ call) q' ∧ Idle q' := by
  cases call with
  | network item => exact network_step hq h hidle hn ht hq'
  | ideAdd op =>
    have hnone : removals q₀ (.ideAdd op) = [] := rfl
    rw [hnone, List.append_nil]
    exact ideAdd_step h hidle hn ht hq'
  | ideRemove op => exact ideRemove_step hq h hidle hn ht hq'

theorem run_step (hq : Replica dirPath q₀) (hrun : Run Step Timely q calls q')
    (h : Backlogged q₀ removed q) (hidle : Idle q)
    (hn : ∀ call ∈ calls, Names q₀ (callPath q₀ call)) :
    Backlogged q₀ (removed ++ calls.flatMap (removals q₀)) q' ∧ Idle q' := by
  induction hrun generalizing removed with
  | nil s =>
    rw [List.flatMap_nil, List.append_nil]
    exact ⟨h, hidle⟩
  | @cons s t u call calls ht hcall _ ih =>
    obtain ⟨ht', hidle'⟩ := call_step hq h hidle (hn call List.mem_cons_self) ht hcall
    rw [List.flatMap_cons, ← List.append_assoc]
    exact ih ht' hidle' fun c hc => hn c (List.mem_cons_of_mem _ hc)

theorem backlogged_loaded (hq : Replica dirPath q₀) : Backlogged q₀ [] q₀ ∧ Idle q₀ := by
  obtain ⟨read, peer, _, hnew⟩ := hq.loaded
  have hsound : AllFiles Sound q₀.tree := fun ref f hf => (loaded_files hnew ref f hf).toSound
  obtain ⟨_, _, hempty⟩ := new_tree hnew
  rw [hempty] at hsound ⊢
  refine ⟨⟨⟨sameRoutes_refl _, hsound, ?_, ?_, ?_⟩, ⟨?_, ?_, ?_, fun tag ht => ?_⟩⟩, rfl, rfl⟩
  case refine_7 => exact absurd ht Finmap.notMem_empty
  all_goals simp [Waits]

theorem names_file (hq : Replica dirPath q₀) (hroutes : SameRoutes q₀.tree q.tree) {path : PathBuf}
    (hn : Names q₀ path) : ∃ ref, q₀.tree.findFile path = some ref ∧
      (∀ x, HasCharacter q path x ↔ Known q ref x) ∧ (∀ x, Gone q ref x → Tombstoned q path x) := by
  obtain ⟨ref, f₀, href, hf₀, hpath⟩ := hn
  obtain ⟨f, hf, hfp⟩ := hroutes.file hf₀
  have huniq : ∀ r g, q.tree.getFile r = some g → g.filePath = path → r = ref := by
    intro r g hg hgp
    have hp := hroutes.paths r
    rw [hg, Option.map_some, eq_comm, Option.map_eq_some_iff] at hp
    obtain ⟨g₀, hg₀, he⟩ := hp
    exact replica_unique hq hg₀ hf₀ (he.trans (hgp.trans hpath.symm))
  refine ⟨ref, href, fun x => ⟨?_, ?_⟩, ?_⟩
  · rintro ⟨r, g, hg, hgp, hx⟩
    exact huniq r g hg hgp ▸ ⟨g, hg, hx⟩
  · rintro ⟨g, hg, hx⟩
    exact ⟨ref, g, hg, by rw [← Option.some.inj (hf.symm.trans hg), hfp, hpath], hx⟩
  · rintro x ⟨g, hg, hx⟩
    exact ⟨ref, g, hg, by rw [← Option.some.inj (hf.symm.trans hg), hfp, hpath], hx⟩

theorem target_path {call : QueueCall} {path : PathBuf} {x : Identity}
    (h : target q₀ call = some (path, x)) : callPath q₀ call = path := by
  cases call with
  | network item =>
    cases item with
    | add op => simp [target] at h
    | remove op =>
      simp only [target, Option.some.injEq, Prod.mk.injEq] at h
      exact h.1
  | ideAdd op => simp [target] at h
  | ideRemove op =>
    simp only [target, Option.some.injEq, Prod.mk.injEq] at h
    exact h.1

theorem target_removals (hq : Replica dirPath q₀) {call : QueueCall} {path : PathBuf} {x : Identity}
    {ref : FileRef} (hn : Names q₀ path) (h : target q₀ call = some (path, x))
    (href : q₀.tree.findFile path = some ref) : (ref, x) ∈ removals q₀ call := by
  cases call with
  | network item =>
    cases item with
    | add op => simp [target] at h
    | remove op =>
      simp only [target, Option.some.injEq, Prod.mk.injEq] at h
      obtain ⟨rfl, rfl⟩ := h
      simp [removals, route_path, itemPath, href]
  | ideAdd op => simp [target] at h
  | ideRemove op =>
    simp only [target, Option.some.injEq, Prod.mk.injEq] at h
    obtain ⟨rfl, rfl⟩ := h
    simp [removals, route_path, itemPath, names_local hq hn, href]

/-- In a run whose calls are timely, nothing outlives what it waits for. -/
theorem awaiting_of_timely (hq : Replica dirPath q₀) (hrun : Run Step Timely q₀ calls q)
    (hn : ∀ call ∈ calls, Names q₀ (callPath q₀ call)) : Awaiting q₀ calls q := by
  obtain ⟨h₀, hidle₀⟩ := backlogged_loaded hq
  obtain ⟨⟨hnet, hide⟩, hidle⟩ := run_step hq hrun h₀ hidle₀ hn
  rw [hidle.network, List.nil_append] at hnet
  refine ⟨fun k i hi => ?_, fun k op hi => ?_, hide.tags, fun call hcall path x ht hne hx => ?_⟩
  · obtain ⟨hni, hk⟩ := hnet.waits k i hi
    obtain ⟨ref, href, hfile, _⟩ := names_file hq hnet.routes hni
    rw [hfile]
    apply hk ref
    rw [route_path, names_local hq hni]
    exact href
  · obtain ⟨hni, hk⟩ := hide.waits k op hi
    obtain ⟨ref, href, hfile, _⟩ := names_file hq hnet.routes hni
    rw [hfile]
    exact hk ref href
  · have hnp : Names q₀ path := target_path ht ▸ hn call hcall
    obtain ⟨ref, href, hfile, hgone⟩ := names_file hq hnet.routes hnp
    have hin : (ref, x) ∈ calls.flatMap (removals q₀) :=
      List.mem_flatMap.mpr ⟨call, hcall, target_removals hq hnp ht href⟩
    rcases hnet.removes ref x hin hne with hg | ⟨op, rfl, hop, hw | hw⟩
    · exact hgone x hg
    · exact absurd ((hfile _).mp hx) ((hnet.waits _ _ hw).2 ref hop)
    · exact absurd hw (by simp)

theorem timely_alone {first : NetworkOp} (hs : AllFiles Sound q.tree) (hb : q.networkBacklog = ∅)
    (hw : q.networkWorklist = []) (h : NetworkTimely q first) : Timely q (.network first) := by
  intro p item hin
  obtain ⟨rfl, rfl⟩ := retriedIn_alone hs hb hw hin
  exact h

end Runs

def note : PathBuf := [.rootDir, .normal "s", .normal "f"]
def start : SharQueue := oneFile "s" 1 noChars [[root]] 0 []

def addX : NetworkOp := .add ⟨[.normal "f"], ⟨5, 2, .new 'x' 0 0⟩, 0⟩
def removeX : NetworkOp := .remove ⟨[.normal "f"], 5, 2, 0⟩

def waitingX : NetworkOp := .remove ⟨note, 5, 2, 0⟩

def parked (fired : List Callback) : SharQueue :=
  { start with networkBacklog := push ∅ (5, 2) waitingX, fired := fired }

def woken (backlog : Backlog Identity NetworkOp) (fired : List Callback) : SharQueue :=
  { oneFile "s" 1 (noChars.insert (5, 2) (.new 'x' 0 0)) [[root, (5, 2)]] 5 fired with
    networkBacklog := backlog }

theorem removeX_timely : NetworkTimely start removeX := by
  intro ref f hr hf
  have hroute : route start removeX = some ([], 0) := rfl
  obtain rfl := Option.some.inj (hroute.symm.trans hr)
  have hget : start.tree.getFile ([], 0) = some (emptyFile note) := rfl
  obtain rfl := Option.some.inj (hget.symm.trans hf)
  refine ⟨fun hl => absurd hl.mem (by decide), fun op hop => absurd hop (by simp [removeX])⟩

theorem addX_timely (fired : List Callback) : NetworkTimely (parked fired) addX := by
  intro ref f hr hf
  have hroute : route (parked fired) addX = some ([], 0) := rfl
  obtain rfl := Option.some.inj (hroute.symm.trans hr)
  have hget : (parked fired).tree.getFile ([], 0) = some (emptyFile note) := rfl
  obtain rfl := Option.some.inj (hget.symm.trans hf)
  refine ⟨fun _ _ => ⟨fun a ha => ?_, fun _ _ B => by simp [emptyFile]⟩, fun op _ _ _ w hw => ?_⟩
  · rcases ha with ⟨_, rfl⟩ | ⟨ht, _⟩
    · exact Or.inl rfl
    · exact absurd ht (emptyFile_tombless note _)
  · exact absurd hw (by simp [Waits, parked, start, oneFile])

theorem waitingX_timely (backlog : Backlog Identity NetworkOp) (fired : List Callback) :
    NetworkTimely (woken backlog fired) waitingX := by
  intro ref f hr hf
  have hroute : route (woken backlog fired) waitingX = some ([], 0) := rfl
  obtain rfl := Option.some.inj (hroute.symm.trans hr)
  have hget : (woken backlog fired).tree.getFile ([], 0) =
      some ⟨note, noChars.insert (5, 2) (.new 'x' 0 0), [[root, (5, 2)]]⟩ := rfl
  obtain rfl := Option.some.inj (hget.symm.trans hf)
  exact ⟨fun _ => by decide, fun op hop => absurd hop (by simp [waitingX])⟩

/-- The remove comes first and waits; the add wakes it. -/
theorem awaiting_of_timely_woken : ∃ q₁ q, Step start (.network removeX) q₁ ∧
    Waits q₁.networkBacklog (5, 2) waitingX ∧ Step q₁ (.network addX) q ∧
    Awaiting start [.network removeX, .network addX] q ∧ Tombstoned q note (5, 2) := by
  have hq := oneFile_replica "s" 1
  have hsound := (backlogged_loaded hq).1.net.sound
  have h₁ : ∃ l, Step start (.network removeX) (parked l) := ⟨_, rfl⟩
  obtain ⟨l, h₁⟩ := h₁
  have hlands : ∃ t b l', (parked l).retryNetwork addX = some t ∧
      t.popNetwork = some (waitingX, woken b l') := ⟨_, _, _, rfl, rfl⟩
  obtain ⟨t, b, l', ht, hpop⟩ := hlands
  have hfalls : ∃ u, (woken b l').retryNetwork waitingX = some u ∧ u.popNetwork = none := ⟨_, rfl, rfl⟩
  obtain ⟨u, hu, hidle⟩ := hfalls
  have h₂ : ∃ q, Step (parked l) (.network addX) q ∧ HasCharacter q note (5, 2) :=
    ⟨_, rfl, ([], 0), _, rfl, rfl, Finmap.mem_iff.mpr ⟨_, rfl⟩⟩
  obtain ⟨q, h₂, hx⟩ := h₂
  have htimely : Timely (parked l) (.network addX) := by
    intro p item hin
    rcases retriedIn_woken rfl ht hpop hu hidle hin with ⟨rfl, rfl⟩ | ⟨rfl, rfl⟩
    · exact addX_timely l
    · exact waitingX_timely b l'
  have hnames : ∀ call ∈ [QueueCall.network removeX, .network addX],
      Names start (callPath start call) := by
    intro call hcall
    have hpath : callPath start call = note := by
      simp only [List.mem_cons, List.not_mem_nil, or_false] at hcall
      rcases hcall with rfl | rfl <;> rfl
    rw [hpath]
    exact ⟨([], 0), _, by decide, rfl, rfl⟩
  have hrun : Run Step Timely start [.network removeX, .network addX] q :=
    .cons (timely_alone hsound rfl rfl removeX_timely) h₁ (.cons htimely h₂ (.nil _))
  have hawaiting := awaiting_of_timely hq hrun hnames
  exact ⟨_, q, h₁, ⟨_, rfl, List.mem_singleton_self _⟩, h₂, hawaiting,
    hawaiting.removes (.network removeX) (by simp) note (5, 2) rfl (by decide) hx⟩

def addA : IdeAdd := ⟨note, none, none, some 2, 'a', 1, 0⟩
def addB : IdeAdd := ⟨note, some 0, some 0, none, 'b', 2, 0⟩
def removeA : Remove := ⟨note, 1, 1, 0⟩

/-- `a` comes behind `b` and is deleted again, all before the server has seen `b`. -/
def undone : List QueueCall := [.ideAdd addA, .ideRemove removeA, .ideAdd addB]

def tagA : HashMap ℕ Identity := Finmap.insert 1 (1, 1) ∅

/-- `a` waits for the tag of `b`, and then its remove for `a`. -/
def held (removed : Backlog Identity NetworkOp) (fired : List Callback) : SharQueue :=
  { start with
    ideTagBacklog := push ∅ 2 addA, tagIdentities := tagA, counter := 1, networkBacklog := removed,
    fired := fired }

def landedBoth (fired : List Callback) : SharQueue :=
  { oneFile "s" 1 ((noChars.insert (2, 1) (.new 'b' 0 0)).insert (1, 1) (.new 'a' 2 1))
      [[root, (2, 1), (1, 1)]] 2 fired with
    tagIdentities := tagA.insert 2 (2, 1), networkBacklog := push ∅ (1, 1) (.remove removeA) }

/-- `b` lands and wakes `a`, but nothing wakes the remove. -/
theorem remove_outlives : ¬ ∀ dirPath q₀ calls q, Replica dirPath q₀ →
    (∀ call ∈ calls, Loaded q₀ (callPath q₀ call)) → Run Step Admitted q₀ calls q →
    Awaiting q₀ calls q := by
  intro h
  have hrun : ∃ l, Run Step Admitted start undone (landedBoth l) := by
    have h₁ : ∃ l, Step start (.ideAdd addA) (held ∅ l) := ⟨_, rfl⟩
    obtain ⟨l, h₁⟩ := h₁
    have h₂ : Step (held ∅ l) (.ideRemove removeA) (held (push ∅ (1, 1) (.remove removeA)) l) := rfl
    have h₃ : ∃ l', Step (held (push ∅ (1, 1) (.remove removeA)) l) (.ideAdd addB) (landedBoth l') :=
      ⟨_, rfl⟩
    obtain ⟨l', h₃⟩ := h₃
    have htags : addA.tag ∉ start.tagIdentities ∧ addB.tag ∉ tagA := by decide
    exact ⟨l', .cons htags.1 h₁ (.cons (Or.inl ⟨1, rfl⟩) h₂ (.cons htags.2 h₃ (.nil _)))⟩
  obtain ⟨l, hrun⟩ := hrun
  have hloaded : ∀ call ∈ undone, Loaded start (callPath start call) := by
    intro call hcall
    refine ⟨([], 0), _, rfl, ?_⟩
    simp only [undone, List.mem_cons, List.not_mem_nil, or_false] at hcall
    rcases hcall with rfl | rfl | rfl <;> rfl
  have hkeyed := (h _ _ _ _ (oneFile_replica "s" 1) hloaded hrun).network (1, 1) (.remove removeA)
    ⟨_, rfl, List.mem_singleton_self _⟩
  exact hkeyed ⟨([], 0), _, rfl, rfl, by decide⟩

end BacklogKeys
