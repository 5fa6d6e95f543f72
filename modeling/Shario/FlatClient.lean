import Shario.DeliveryRuns
import Shario.QueueRuns
import Shario.SinglePlace
import Shario.TextSplices

/-! A client that holds one flat list of identities and does what the network callbacks
say: insert behind the named predecessor, delete the named target. -/
namespace FlatClient

open CrdtTypes RowLayout FileTree FileSearch CharacterTree FilePlacement FileSafety FileShape
  SinglePlace DirectoryTree ShareQueue WorklistDrain TreeCalls QueueSteps QueueRuns NetworkDelivery
  TextSplices

/-- `none` is a predecessor that the list does not have. -/
def insertAfter (doc : List Identity) (p x : Identity) : Option (List Identity) := do
  let i ← doc.idxOf? p
  insertAt doc (i + 1) x

def deleteFrom (doc : List Identity) (x : Identity) : Option (List Identity) := do
  let i ← doc.idxOf? x
  removeAt doc i

def follow (doc : List Identity) : Callback → Option (List Identity)
  | .networkAdd op => insertAfter doc op.crdt.relation.parent op.crdt.identity
  | .networkRemove op => deleteFrom doc op.identity
  | _ => some doc

def concerns (t : SharDirectory) (ref : FileRef) : Callback → Bool
  | .networkAdd op => t.findFile op.filePath = some ref
  | .networkRemove op => t.findFile op.filePath = some ref
  | _ => false

/-- The list of a client of `ref` after the callbacks `log`. -/
def replay (t : SharDirectory) (ref : FileRef) (doc : List Identity) (log : List Callback) :
    Option (List Identity) :=
  (log.filter (concerns t ref)).foldlM follow doc

/-- What a client gets from `identities`. -/
def firstList (f : SharFile) : Option (List Identity) :=
  f.identitiesWithValues.map fun rows => rows.flatten.map Prod.fst

/-- The predecessor that the callback of a landed add names. -/
def told (g : SharFile) (pos : Position) (c : CRDT) : Identity :=
  (predecessorIdentity g.projection pos).getD c.relation.parent

/-- Under a deleted parent an add puts no line break, and does not land in front of row 0:
the nearest live ancestor is not the root, unless the deleted child of the root has id 0. -/
def StaysBehind (f : SharFile) (c : CRDT) : Prop :=
  c.identity ∉ f.characters → Tomb f.characters c.relation.parent →
    isLineBreak c.relation.value = false ∧
      ∀ t a, Anchor f.characters c.relation.parent t a → a = root → t.1 = 0

section Lists

variable {l r doc : List Identity} {p x y : Identity} {A B : List (List Identity)}
  {u v : List Identity} {t : SharDirectory} {ref : FileRef} {log : List Callback} {cb : Callback}

theorem idxOf_middle (h : p ∉ l) : (l ++ p :: r).idxOf? p = some l.length := by
  induction l with
  | nil => simp [List.idxOf?_cons]
  | cons a l ih =>
    simp only [List.mem_cons, not_or] at h
    have hne : (a == p) = false := by
      rw [beq_eq_false_iff_ne]
      exact fun he => h.1 he.symm
    rw [List.cons_append, List.idxOf?_cons, hne, ih h.2]
    rfl

theorem insertAfter_middle (h : (l ++ p :: r).Nodup) :
    insertAfter (l ++ p :: r) p x = some (l ++ p :: x :: r) := by
  have hp : p ∉ l := fun hin => (List.disjoint_of_nodup_append h) hin (by simp)
  simp only [insertAfter, idxOf_middle hp, Option.bind_eq_bind, Option.bind_some, insertAt_behind]

theorem insertAfter_unknown (h : p ∉ doc) : insertAfter doc p x = none := by
  have hnone : doc.idxOf? p = none := by rwa [List.idxOf?_eq_none_iff]
  simp [insertAfter, hnone]

theorem deleteFrom_middle (h : (l ++ x :: r).Nodup) :
    deleteFrom (l ++ x :: r) x = some (l ++ r) := by
  have hx : x ∉ l := fun hin => (List.disjoint_of_nodup_append h) hin (by simp)
  simp only [deleteFrom, idxOf_middle hx, Option.bind_eq_bind, Option.bind_some, removeAt_append]

theorem predecessor_in_row :
    predecessorIdentity (A ++ (u ++ p :: v) :: B) (A.length, (u ++ [p]).length) = some p := by
  simp [predecessorIdentity]

theorem predecessor_above :
    predecessorIdentity (A ++ (u ++ [p]) :: B) (A.length + 1, 0) = some p := by
  simp [predecessorIdentity]

theorem replay_snoc (hdoc : replay t ref doc log = some l)
    (h : concerns t ref cb = true → follow l cb = some r)
    (hskip : concerns t ref cb = false → l = r) : replay t ref doc (log ++ [cb]) = some r := by
  rw [replay] at hdoc
  rw [replay, List.filter_append, List.foldlM_append, hdoc]
  cases hc : concerns t ref cb with
  | true => simp [hc, h hc]
  | false => simp [hc, hskip hc]

end Lists

section Files

variable {f g : SharFile} {c : CRDT} {x : Identity} {pos : Position} {A B : List (List Identity)}
  {pre post : List Identity} {t : Identity}

theorem firstList_eq (h : Sound f) : firstList f = some (text f) := by
  rw [firstList, identities_eq h, Option.map_some, List.map_flatten, List.map_map]
  simp [text, Function.comp_def]

theorem root_stops (h : Shape f) {y : Identity} (hy : y ≠ root ∨ x.1 ≠ 0) :
    skips f.characters y x root = false := by
  simp only [skips, h.rooted.root_entry, Option.map_some, Bool.and_eq_false_iff]
  rcases hy with hy | hx
  · apply Or.inl
    rw [beq_eq_false_iff_ne, Ne, Option.some.injEq]
    exact fun he => hy he.symm
  · exact Or.inr (decide_eq_false (by simp only [sibling, root]; omega))

theorem takeWhile_root (h : Shape f) {y : Identity} {row : List Identity}
    (hrows : f.projection = row :: B) (hy : y ≠ root ∨ x.1 ≠ 0) :
    row.takeWhile (skips f.characters y x) = [] := by
  obtain ⟨w, C, hhead⟩ := h.headed
  rw [hrows, List.cons.injEq] at hhead
  rw [hhead.1, List.takeWhile_cons_of_neg]
  rw [root_stops h hy]
  simp

/-- Under a deleted child of the root the slot is in front of the root. -/
theorem slot_before_root (h : Shape f) (hs : Slot f x A pre post B)
    (ha : Anchor f.characters x t root) (ht : t.1 ≠ 0) : A = [] ∧ pre = [] := by
  induction hs with
  | @root x line B hx hrows =>
    have htx : t = x := by
      cases ha with
      | live _ _ => rfl
      | tomb hp ht _ =>
        rw [hx, Option.some.injEq] at hp
        subst hp
        exact absurd h.rooted.root_live ht.not_live
    exact ⟨rfl, takeWhile_root h hrows (Or.inr (htx ▸ ht))⟩
  | @live x a A u v B hx hne hl hrows =>
    obtain ⟨_, he⟩ := anchor_unique ha (.live hx hl)
    exact absurd he.symm hne
  | @tomb x y A pre post B hx hty hs ih =>
    have ha' : Anchor f.characters y t root := by
      cases ha with
      | live hp hl =>
        rw [hx, Option.some.injEq] at hp
        subst hp
        exact absurd hl hty.not_live
      | tomb hp _ ha' =>
        rw [hx, Option.some.injEq] at hp
        exact hp ▸ ha'
    obtain ⟨rfl, rfl⟩ := ih ha'
    refine ⟨rfl, ?_⟩
    rw [List.nil_append]
    exact takeWhile_root h hs.rows (Or.inl (h.rooted.tomb_ne_root hty))

theorem char_follows (h : Shape f) (hrows : f.projection = A ++ (pre ++ post) :: B)
    (hpre : pre ≠ []) (hg : g.projection = A ++ (pre ++ x :: post) :: B) :
    ∃ p, predecessorIdentity g.projection (A.length, pre.length) = some p ∧
      insertAfter (text f) p x = some (text g) := by
  obtain ⟨u, p, rfl⟩ := (List.eq_nil_or_concat pre).resolve_left hpre
  rw [List.concat_eq_append] at hrows hg ⊢
  refine ⟨p, ?_, ?_⟩
  · rw [hg, List.append_assoc]
    exact predecessor_in_row
  · have htext : text f = (A.flatten ++ u) ++ p :: (post ++ B.flatten) := by
      rw [text_middle hrows]
      simp
    have htext' : text g = (A.flatten ++ u) ++ p :: x :: (post ++ B.flatten) := by
      rw [text, hg, flatten_middle]
      simp
    rw [htext, htext']
    exact insertAfter_middle (htext ▸ h.nodup)

theorem line_follows (h : Shape f) (hrows : f.projection = A ++ (pre ++ post) :: B)
    (hpre : pre ≠ []) (hg : g.projection = A ++ pre :: (x :: post) :: B) :
    ∃ p, predecessorIdentity g.projection (A.length + 1, 0) = some p ∧
      insertAfter (text f) p x = some (text g) := by
  obtain ⟨u, p, rfl⟩ := (List.eq_nil_or_concat pre).resolve_left hpre
  rw [List.concat_eq_append] at hrows hg
  refine ⟨p, ?_, ?_⟩
  · rw [hg]
    exact predecessor_above
  · have htext : text f = (A.flatten ++ u) ++ p :: (post ++ B.flatten) := by
      rw [text_middle hrows]
      simp
    have htext' : text g = (A.flatten ++ u) ++ p :: x :: (post ++ B.flatten) := by
      rw [text, hg]
      simp
    rw [htext, htext']
    exact insertAfter_middle (htext ▸ h.nodup)

/-- A line break put above the row it cuts: the row before it ends in the break itself, or in
what the client has behind the cut. -/
theorem above_misleads (hx : x ∉ text f) (hn : (text f).Nodup)
    (hrows : f.projection = A ++ (pre ++ post) :: B)
    (hg : g.projection = A ++ (x :: post) :: pre :: B) (p : Identity) :
    insertAfter (text f) ((predecessorIdentity g.projection (A.length + 1, 0)).getD p) x ≠
      some (text g) := by
  have htext := text_middle hrows
  rcases List.eq_nil_or_concat post with rfl | ⟨w, y, rfl⟩
  · have hlast : predecessorIdentity g.projection (A.length + 1, 0) = some x := by
      rw [hg]
      exact predecessor_above (u := [])
    rw [hlast, Option.getD_some, insertAfter_unknown hx]
    simp
  · rw [List.concat_eq_append] at hg htext
    have hlast : predecessorIdentity g.projection (A.length + 1, 0) = some y := by
      rw [hg, ← List.cons_append]
      exact predecessor_above
    have hsplit : text f = (A.flatten ++ (pre ++ w)) ++ y :: B.flatten := by
      rw [htext]
      simp
    have htext' : text g = A.flatten ++ x :: ((w ++ [y]) ++ (pre ++ B.flatten)) := by
      rw [text, hg]
      simp
    rw [hlast, Option.getD_some, hsplit, insertAfter_middle (hsplit ▸ hn), htext', Ne,
      Option.some.injEq, List.append_assoc, List.append_cancel_left_eq]
    -- Behind the rows above, the list goes on with an old character, the text with the break.
    cases hpw : pre ++ w with
    | nil =>
      rw [List.nil_append, List.cons.injEq]
      rintro ⟨rfl, _⟩
      exact hx (by rw [hsplit]; simp)
    | cons a l =>
      rw [List.cons_append, List.cons.injEq]
      rintro ⟨rfl, _⟩
      exact hx (by rw [hsplit, hpw]; simp)

theorem front_misleads (h : Shape f) (ht : Tomb f.characters c.relation.parent)
    (hpos : pos = (0, 0)) :
    insertAfter (text f) (told g pos c) c.identity ≠ some (text g) := by
  have hunknown : c.relation.parent ∉ text f := fun hin => ht.not_live ((h.live _).mpr hin)
  have htold : told g pos c = c.relation.parent := by
    rw [told, hpos]
    rfl
  rw [htold, insertAfter_unknown hunknown]
  simp

/-- A landed add is followed exactly if it stays behind what the client has. -/
theorem follows_iff (h : Shape f) (ha : Added f c (.ok (some pos)) g) :
    insertAfter (text f) (told g pos c) c.identity = some (text g) ↔ StaysBehind f c := by
  cases ha with
  | @char A pre post B hc hb hplace _ =>
    have hrows := hplace.scan (skips f.characters c.relation.parent c.identity)
    have hscan : ∀ row B, f.projection = row :: B → Tomb f.characters c.relation.parent →
        row.takeWhile (skips f.characters c.relation.parent c.identity) = [] := fun row B hrows ht =>
      takeWhile_root h hrows (Or.inl (h.rooted.tomb_ne_root ht))
    generalize htw : post.takeWhile (skips f.characters c.relation.parent c.identity) = tw at hrows ⊢
    generalize post.dropWhile (skips f.characters c.relation.parent c.identity) = dw at hrows ⊢
    generalize hg : landed f c (A ++ (pre ++ tw ++ c.identity :: dw) :: B) = g
    have hrows' : g.projection = A ++ (pre ++ tw ++ c.identity :: dw) :: B := by
      rw [← hg]
      rfl
    have hfollows : pre ≠ [] →
        insertAfter (text f) (told g (A.length, (pre ++ tw).length) c) c.identity = some (text g) := by
      intro hpre
      obtain ⟨p, hp, he⟩ := char_follows h hrows (fun he => hpre (List.append_eq_nil_iff.mp he).1) hrows'
      rw [told, hp]
      exact he
    rcases live_or_tomb (Place.parent_mem h.toSound hplace) with hl | ht
    · exact ⟨fun _ _ ht => absurd hl ht.not_live, fun _ => hfollows (place_headed h hl hplace)⟩
    · have hs := hplace.slot h.rooted ht
      obtain ⟨t, a, hanchor, hin⟩ := slot_anchor h hs
      by_cases hroot : a = root ∧ t.1 ≠ 0
      · obtain ⟨rfl, ht0⟩ := hroot
        obtain ⟨rfl, rfl⟩ := slot_before_root h hs hanchor ht0
        obtain rfl : tw = [] := htw ▸ hscan post B hs.rows ht
        exact ⟨fun he => absurd he (front_misleads h ht rfl), fun hg =>
          absurd ((hg hc ht).2 t root hanchor rfl) ht0⟩
      · have hsafe : a ≠ root ∨ t.1 = 0 := by tauto
        refine ⟨fun _ _ _ => ⟨hb, fun t' a' ha' he => ?_⟩, fun _ =>
          hfollows (List.ne_nil_of_mem (hin hsafe))⟩
        obtain ⟨rfl, rfl⟩ := anchor_unique hanchor ha'
        exact hsafe.resolve_left fun hne => hne he
  | @line A pre post B hc _ hl hplace =>
    generalize hg : landed f c (A ++ pre :: (c.identity :: post) :: B) = g
    have hrows : g.projection = A ++ pre :: (c.identity :: post) :: B := by
      rw [← hg]
      rfl
    obtain ⟨p, hp, he⟩ := line_follows h hplace.rows (place_headed h hl hplace) hrows
    refine ⟨fun _ _ ht => absurd hl ht.not_live, fun _ => ?_⟩
    rw [told, hp]
    exact he
  | @lineAbove A pre post B hc hb ht hs =>
    have hnew : c.identity ∉ text f := fun hin => hc (h.known _ hin)
    refine ⟨fun he => absurd he (above_misleads hnew h.nodup hs.rows rfl _), fun hg => ?_⟩
    have hplain := (hg hc ht).1
    rw [hb] at hplain
    exact absurd hplain (by simp)

end Files

/-- An operation that is tried stays behind what the clients of its file have. -/
def Follows (p : SharQueue) : NetworkOp → Prop
  | .add op => ∀ ref f, route p (.add op) = some ref → p.tree.getFile ref = some f →
    StaysBehind f op.crdt
  | .remove _ => True

/-- Every operation that a call of the run tries, its own or a drained one, stays behind. -/
def Guided (q₀ : SharQueue) (calls : List NetworkOp) : Prop :=
  ∀ done item rest q, calls = done ++ item :: rest → done.foldlM deliver q₀ = some q →
    ∀ p i, RetriedIn q item p i → Follows p i

/-- No add creates a character that is already deleted. -/
def Undeleted (item : NetworkOp) : Prop := ∀ op, item = .add op → op.crdt.relation.deleted = false

def InStep (q₀ : SharQueue) (t : SharDirectory) (log : List Callback) : Prop :=
  ∀ ref f₀ f, q₀.tree.getFile ref = some f₀ → t.getFile ref = some f →
    replay q₀.tree ref (text f₀) log = some (text f)

/-- Every client that started with the list of its file now has the text of that file. -/
def ClientsFollow (q₀ q : SharQueue) : Prop :=
  ∀ ref f₀, q₀.tree.getFile ref = some f₀ → ∃ doc f, firstList f₀ = some doc ∧
    q.tree.getFile ref = some f ∧ replay q₀.tree ref doc q.fired = some (text f)

structure Following (q₀ p : SharQueue) : Prop where
  routes : SameRoutes q₀.tree p.tree
  files : AllFiles Shape p.tree
  waits : ∀ k item, Waits p.networkBacklog k item → Undeleted item
  listed : ∀ item ∈ p.networkWorklist, Undeleted item
  clients : InStep q₀ p.tree p.fired

section Steps

variable {q₀ p p' : SharQueue} {t u : SharDirectory} {ref : FileRef} {f g : SharFile}
  {path : PathBuf} {c : CRDT} {x : Identity} {o : Outcome} {pos : Position} {log : List Callback}
  {cb : Callback} {item : NetworkOp}

theorem rewrite_parent (hr : t.findFile path = some ref) (hf : t.getFile ref = some g)
    (op : NetworkAdd) :
    (SharQueue.rewriteParent t path pos op).crdt.relation.parent = told g pos op.crdt := by
  have hp : t.predecessorIdentity path pos = .ok (predecessorIdentity g.projection pos) := by
    simp [SharDirectory.predecessorIdentity, hr, hf]
  rw [SharQueue.rewriteParent, hp, told]
  cases predecessorIdentity g.projection pos <;> rfl

theorem shape_sound (h : AllFiles Shape t) : AllFiles Sound t := fun r f hf => (h r f hf).toSound

theorem stays_shape (h : Shape f) (hd : c.relation.deleted = false) (hs : StaysBehind f c)
    (ha : Added f c o g) : Shape g := by
  refine shape_added 0 h hd (fun c' he hc ht t a hanchor => ?_) ha
  cases he
  obtain ⟨hb, hroot⟩ := hs hc ht
  refine ⟨hroot t a hanchor, fun hb' => ?_⟩
  rw [hb] at hb'
  exact absurd hb' (by simp)

theorem inStep_fired (h : InStep q₀ t log) (hf : t.getFile ref = some f)
    (hcb : ∀ r, concerns q₀.tree r cb = true ↔ r = ref)
    (hfollow : follow (text f) cb = some (text g)) :
    InStep q₀ (t.setFile ref g) (log ++ [cb]) := by
  intro r f₀ f' hf₀ hf'
  by_cases hr : r = ref
  · subst hr
    rw [SharDirectory.getFile_setFile_self hf, Option.some.injEq] at hf'
    subst hf'
    refine replay_snoc (h r f₀ f hf₀ hf) (fun _ => hfollow) fun hc => ?_
    rw [(hcb r).mpr rfl] at hc
    exact absurd hc (by simp)
  · rw [SharDirectory.getFile_setFile_ne hr] at hf'
    exact replay_snoc (h r f₀ f' hf₀ hf') (fun hc => absurd ((hcb r).mp hc) hr) fun _ => rfl

theorem inStep_silent (h : InStep q₀ t log) (hf : t.getFile ref = some f) (htext : text g = text f) :
    InStep q₀ (t.setFile ref g) log := by
  intro r f₀ f' hf₀ hf'
  by_cases hr : r = ref
  · subst hr
    rw [SharDirectory.getFile_setFile_self hf, Option.some.injEq] at hf'
    rw [← hf', htext]
    exact h r f₀ f hf₀ hf
  · rw [SharDirectory.getFile_setFile_ne hr] at hf'
    exact h r f₀ f' hf₀ hf'

theorem removed_silent (h : Shape f) (hr : Removed f x o g) (ho : ∀ pos, o ≠ .ok (some pos)) :
    g = f := by
  cases hr with
  | unknown _ => rfl
  | again _ => rfl
  | unplaced hl hd hn => exact absurd ((h.live x).mp ⟨_, hl, hd⟩) hn
  | char _ _ _ _ => exact absurd rfl (ho _)
  | line _ _ _ _ _ => exact absurd rfl (ho _)

theorem removed_follows (h : Shape f) (hx : x ≠ root) (hr : Removed f x (.ok (some pos)) g) :
    deleteFrom (text f) x = some (text g) := by
  obtain ⟨rel, hl, hd, _⟩ := removed_falls hr
  obtain ⟨l, r, htext⟩ := List.append_of_mem ((h.live x).mp ⟨rel, hl, hd⟩)
  obtain ⟨_, _, htext', _⟩ := live_removed h hx htext hr
  have hn : (l ++ x :: r).Nodup := htext ▸ h.nodup
  rw [text, htext, htext']
  exact deleteFrom_middle hn

theorem following_counted (h : Following q₀ p) (n : ℕ) : Following q₀ (counted p n) :=
  ⟨h.routes, h.files, h.waits, h.listed, h.clients⟩

theorem following_waiting {k : Identity} (h : Following q₀ p) (hi : Undeleted item) :
    Following q₀ (waiting p k item) := by
  refine { h with waits := fun j i hw => ?_ }
  rw [waiting_backlog, waits_push] at hw
  rcases hw with hw | ⟨_, rfl⟩
  · exact h.waits j i hw
  · exact hi

theorem following_popped {rest : List NetworkOp} (h : Following q₀ p)
    (hw : p.networkWorklist = item :: rest) :
    Following q₀ { p with networkWorklist := rest } ∧ Undeleted item :=
  ⟨{ h with listed := fun i hi => h.listed i (by rw [hw]; exact List.mem_cons_of_mem _ hi) },
    h.listed item (by rw [hw]; simp)⟩

theorem following_queued (h : Following q₀ p) (x : Identity) :
    Following q₀ (p.queueNetworkBacklog x) := by
  refine ⟨?_, ?_, fun k i hw => ?_, fun i hi => ?_, ?_⟩
  · rw [queueNetwork_tree]
    exact h.routes
  · rw [queueNetwork_tree]
    exact h.files
  · rw [queueNetwork_backlog] at hw
    exact h.waits k i hw.1
  · rw [queueNetwork_worklist] at hi
    exact hi.elim (h.listed i) (h.waits x i)
  · rw [queueNetwork_tree, queueNetwork_fired]
    exact h.clients

theorem following_silent (h : Following q₀ p) (ht : SameRoutes p.tree t) (hf : AllFiles Shape t)
    (hc : InStep q₀ t p.fired) : Following q₀ (withTree p t) :=
  ⟨h.routes.trans ht, hf, h.waits, h.listed, hc⟩

theorem tree_added_silent (h : Following q₀ p) (ha : TreeAdded p.tree path c o t)
    (ho : ∀ pos, o ≠ .ok (some pos)) : Following q₀ (withTree p t) := by
  refine following_silent h ha.routes ?_ ?_
  · exact ha.allFiles h.files fun _ _ _ _ _ hf hg => added_silent hf hg ho ▸ hf
  · cases ha with
    | lost _ => exact h.clients
    | routed _ hf hg =>
      exact inStep_silent h.clients hf (by rw [added_silent (h.files _ _ hf) hg ho])

theorem tree_removed_silent (h : Following q₀ p) (hr : TreeRemoved p.tree path x o t)
    (ho : ∀ pos, o ≠ .ok (some pos)) : Following q₀ (withTree p t) := by
  refine following_silent h hr.routes ?_ ?_
  · exact hr.allFiles h.files fun _ _ _ _ _ hf hg => removed_silent hf hg ho ▸ hf
  · cases hr with
    | lost _ => exact h.clients
    | routed _ hf hg =>
      exact inStep_silent h.clients hf (by rw [removed_silent (h.files _ _ hf) hg ho])

theorem following_retried (h : Following q₀ p) (hi : Undeleted item) (hg : Follows p item)
    (hr : Retried p item p') : Following q₀ p' := by
  cases hr with
  | rootAdd _ => exact following_counted h _
  | @landed op pos t _ ha =>
    have hcount := following_counted h op.crdt.id
    refine following_queued ?_ _
    cases ha with
    | @routed ref f _ g hroute hf ha =>
      have hs : StaysBehind f op.crdt := hg ref f hroute hf
      have hpath : (p.tree.setFile ref g).findFile (localAdd p op).filePath = some ref := by
        rw [(sameRoutes_set hf (added_path ha)).findFile]
        exact hroute
      have hcb : ∀ r, concerns q₀.tree r (.networkAdd (SharQueue.rewriteParent (p.tree.setFile ref g)
          (localAdd p op).filePath pos (localAdd p op))) = true ↔ r = ref := by
        intro r
        rw [concerns, (rewriteParent_subject _ _ _ _).1, ← h.routes.findFile]
        simp [show p.tree.findFile (localAdd p op).filePath = some ref from hroute, eq_comm]
      refine ⟨h.routes.trans (sameRoutes_set hf (added_path ha)), ?_, h.waits, h.listed, ?_⟩
      · exact allFiles_set h.files hf (stays_shape (h.files ref f hf) (hi op rfl) hs ha)
      · apply inStep_fired h.clients hf hcb
        rw [follow, (rewriteParent_subject _ _ _ _).2,
          rewrite_parent hpath (SharDirectory.getFile_setFile_self hf)]
        exact (follows_iff (h.files ref f hf) ha).mpr hs
  | repeated _ ha => exact tree_added_silent (following_counted h _) ha (by simp)
  | @early op e t _ ha =>
    apply following_waiting (tree_added_silent (following_counted h _) ha (by simp))
    intro op' he
    obtain rfl := NetworkOp.add.inj he
    exact hi op rfl
  | rootRemove _ => exact h
  | @fallen op pos t hx ht =>
    cases ht with
    | @routed ref f _ g hroute hf ht =>
      have hcb : ∀ r, concerns q₀.tree r (.networkRemove (localRemove p op)) = true ↔ r = ref := by
        intro r
        rw [concerns, ← h.routes.findFile]
        simp [show p.tree.findFile (localRemove p op).filePath = some ref from hroute, eq_comm]
      refine ⟨h.routes.trans (sameRoutes_set hf (removed_path ht)), ?_, h.waits, h.listed, ?_⟩
      · exact allFiles_set h.files hf (shape_removed (h.files ref f hf) hx ht)
      · exact inStep_fired h.clients hf hcb (removed_follows (h.files ref f hf) hx ht)
  | again _ ht => exact tree_removed_silent h ht (by simp)
  | earlyRemove _ ht =>
    exact following_waiting (tree_removed_silent h ht (by simp)) (by simp [Undeleted])

theorem following_safe (h : AllFiles Shape p.tree) (item : NetworkOp) : ¬ Crashes p item := by
  rintro ⟨op, rfl, _, ref, f, _, hf, hb⟩
  exact shape_no_break_on_top (h ref f hf) hb

theorem following_call {q : SharQueue} (h : Following q₀ q) (hw : q.networkWorklist = [])
    (hi : Undeleted item) (hg : ∀ p i, RetriedIn q item p i → Follows p i) :
    ∃ q', deliver q item = some q' ∧ Following q₀ q' ∧ q'.networkWorklist = [] := by
  have hsound : ∀ p, Following q₀ p → AllFiles Sound p.tree := fun p hp => shape_sound hp.files
  refine deliver_returns hsound ?_ ?_ hw { h with listed := ?_ }
  · intro p i p₁ hp hpop _
    obtain ⟨rest, _, rfl⟩ := pop_eq hpop
    exact following_safe (p := { p with networkWorklist := rest }) hp.files i
  · intro p i p₁ p₂ hp hpop hin hr
    obtain ⟨rest, hl, rfl⟩ := pop_eq hpop
    obtain ⟨hp₁, hi⟩ := following_popped hp hl
    exact following_retried hp₁ hi (hg _ i hin) hr
  · intro i hmem
    rw [List.mem_singleton.mp hmem]
    exact hi

theorem following_run {q : SharQueue} {calls : List NetworkOp} (h : Following q₀ q)
    (hw : q.networkWorklist = []) (hi : ∀ item ∈ calls, Undeleted item) (hg : Guided q calls) :
    ∃ q', calls.foldlM deliver q = some q' ∧ Following q₀ q' := by
  induction calls generalizing q with
  | nil => exact ⟨q, rfl, h⟩
  | cons item calls ih =>
    obtain ⟨q₁, hq₁, h₁, hw₁⟩ := following_call h hw (hi item (by simp))
      fun p i hin => hg [] item calls q rfl rfl p i hin
    have hg₁ : Guided q₁ calls := by
      intro done i rest q₂ he hq₂ p j hin
      refine hg (item :: done) i rest q₂ (by rw [he]; rfl) ?_ p j hin
      rw [List.foldlM_cons, hq₁]
      exact hq₂
    obtain ⟨q', hq', h'⟩ := ih h₁ hw₁ (fun i hin => hi i (List.mem_cons_of_mem _ hin)) hg₁
    refine ⟨q', ?_, h'⟩
    rw [List.foldlM_cons, hq₁]
    exact hq'

end Steps

section Runs

variable {q₀ : SharQueue} {dirPath : PathBuf} {read : Except String (List FsEntry)} {peer : ℕ}

theorem loaded_following (h : SharQueue.new dirPath read peer = some (.ok q₀)) :
    Following q₀ q₀ ∧ q₀.networkWorklist = [] := by
  have hfiles := DeliveryRuns.loaded_files h
  obtain ⟨_, _, hq⟩ := PathRouting.new_tree h
  refine ⟨⟨sameRoutes_refl _, fun ref f hf => (hfiles ref f hf).toShape, ?_, ?_, ?_⟩, by rw [hq]⟩
  · rw [hq]
    rintro k item ⟨l, hl, _⟩
    exact absurd hl (by simp)
  · rw [hq]
    simp
  · intro ref f₀ f hf₀ hf
    rw [hf₀, Option.some.injEq] at hf
    rw [hq, hf]
    rfl

/-- After every call of a guided run the list of each client is the text of its file. -/
theorem client_follows (hl : SharQueue.new dirPath read peer = some (.ok q₀))
    {calls : List NetworkOp} (hi : ∀ item ∈ calls, Undeleted item) (hg : Guided q₀ calls) :
    ∀ done rest, calls = done ++ rest →
      ∃ q, done.foldlM deliver q₀ = some q ∧ ClientsFollow q₀ q := by
  rintro done rest rfl
  obtain ⟨h₀, hw⟩ := loaded_following hl
  obtain ⟨q, hq, h⟩ := following_run h₀ hw (fun i hin => hi i (List.mem_append_left _ hin))
    fun before i after q₁ he => hg before i (after ++ rest) q₁ (by rw [he]; simp)
  refine ⟨q, hq, fun ref f₀ hf₀ => ?_⟩
  obtain ⟨f, hf, _⟩ := h.routes.file hf₀
  exact ⟨text f₀, f, firstList_eq (h₀.files ref f₀ hf₀).toSound, hf, h.clients ref f₀ f hf₀ hf⟩

end Runs

def removeB : NetworkOp := .remove ⟨[.normal "f"], 2, 0, 0⟩

/-- A peer types behind the character that another one deletes. -/
def typedBehind (value : Char) : NetworkOp := .add ⟨[.normal "f"], ⟨3, 1, .new value 2 0⟩, 0⟩

def charsAb : Characters := (noChars.insert (1, 0) (.new 'a' 0 0)).insert (2, 0) (.new 'b' 1 0)

def loadedAb : SharQueue := oneFile "s" 5 charsAb [[root, (1, 0), (2, 0)]] 2 []

def withoutB : SharQueue := oneFile "s" 5 (mark charsAb (2, 0) (.new 'b' 1 0)) [[root, (1, 0)]] 2
  [.networkRemove ⟨[.rootDir, .normal "s", .normal "f"], 2, 0, 0⟩]

theorem loaded_ab : SharQueue.new [.rootDir, .normal "s"] (.ok [.file "f" (.ok ['a', 'b'])]) 5 =
    some (.ok loadedAb) := rfl

theorem removed_b : deliver loadedAb removeB = some withoutB := rfl

theorem typed_undeleted (value : Char) : ∀ item ∈ [removeB, typedBehind value], Undeleted item := by
  intro item hin op he
  rcases List.mem_cons.mp hin with rfl | hin
  · exact absurd he (by simp [removeB])
  · rw [List.mem_singleton.mp hin, typedBehind, NetworkOp.add.injEq] at he
    rw [← he]
    rfl

theorem typed_behind : StaysBehind ⟨[.rootDir, .normal "s", .normal "f"],
    mark charsAb (2, 0) (.new 'b' 1 0), [[root, (1, 0)]]⟩ ⟨3, 1, .new 'c' 2 0⟩ := by
  refine fun _ _ => ⟨rfl, fun t a ha hroot => ?_⟩
  subst hroot
  have hp : parentOf (mark charsAb (2, 0) (.new 'b' 1 0)) (2, 0) = some (1, 0) := rfl
  cases ha with
  | live h _ => exact absurd (Option.some.inj (hp.symm.trans h)) (by decide)
  | tomb h ht _ =>
    obtain rfl := Option.some.inj (hp.symm.trans h)
    exact absurd ⟨_, rfl, rfl⟩ ht.not_live

theorem client_follows_typed :
    ∃ q, [removeB, typedBehind 'c'].foldlM deliver loadedAb = some q ∧ ClientsFollow loadedAb q := by
  obtain ⟨h₀, hw₀⟩ := loaded_following loaded_ab
  have hfirst : ∀ p i, RetriedIn loadedAb removeB p i → Follows p i := by
    intro p i hin
    obtain ⟨rfl, rfl⟩ := retriedIn_alone (shape_sound h₀.files) rfl hw₀ hin
    trivial
  obtain ⟨q₁, hq₁, h₁, hw₁⟩ := following_call h₀ hw₀ (typed_undeleted 'c' _ (by simp)) hfirst
  obtain rfl := Option.some.inj (hq₁.symm.trans removed_b)
  have hsecond : ∀ p i, RetriedIn withoutB (typedBehind 'c') p i → Follows p i := by
    intro p i hin
    obtain ⟨rfl, rfl⟩ := retriedIn_alone (shape_sound h₁.files) rfl hw₁ hin
    intro ref g hr hg
    have hroute : route withoutB (typedBehind 'c') = some ([], 0) := by decide
    obtain rfl := Option.some.inj (hroute.symm.trans hr)
    obtain rfl := Option.some.inj hg
    exact typed_behind
  have hg : Guided loadedAb [removeB, typedBehind 'c'] := by
    intro done item rest q he hq p i hin
    rcases done with _ | ⟨first, _ | ⟨second, done⟩⟩
    · obtain ⟨rfl, _⟩ := List.cons.inj he
      cases hq
      exact hfirst p i hin
    · simp only [List.cons_append, List.nil_append, List.cons.injEq] at he
      obtain ⟨rfl, rfl, _⟩ := he
      rw [List.foldlM_cons, removed_b] at hq
      cases hq
      exact hsecond p i hin
    · simp at he
  exact client_follows loaded_ab (typed_undeleted 'c') hg _ [] (List.append_nil _).symm

/-- The line break is told to stand behind itself. -/
theorem line_break_misleads : ¬ ∀ dirPath read peer q₀ (calls : List NetworkOp),
    SharQueue.new dirPath read peer = some (.ok q₀) → (∀ item ∈ calls, Undeleted item) →
    (∀ op, .remove op ∈ calls → op.identity ≠ root) →
    ∃ q, calls.foldlM deliver q₀ = some q ∧ ClientsFollow q₀ q := by
  intro h
  have hnonroot : ∀ op, .remove op ∈ [removeB, typedBehind '\n'] → op.identity ≠ root := by
    intro op hin
    simp only [removeB, typedBehind, List.mem_cons, NetworkOp.remove.injEq, reduceCtorEq,
      List.not_mem_nil, or_false] at hin
    rw [hin]
    decide
  obtain ⟨q, hq, hfollow⟩ := h _ _ _ loadedAb _ loaded_ab (typed_undeleted '\n') hnonroot
  have hrun : [removeB, typedBehind '\n'].foldlM deliver loadedAb = some (oneFile "s" 5
      ((mark charsAb (2, 0) (.new 'b' 1 0)).insert (3, 1) (.new '\n' 2 0)) [[(3, 1)], [root, (1, 0)]] 3
      [.networkRemove ⟨[.rootDir, .normal "s", .normal "f"], 2, 0, 0⟩,
        .networkAdd ⟨[.rootDir, .normal "s", .normal "f"], ⟨3, 1, .new '\n' 3 1⟩, 0⟩]) := rfl
  obtain rfl := Option.some.inj (hq.symm.trans hrun)
  obtain ⟨doc, f, hdoc, _, hsome⟩ := hfollow ([], 0) _ rfl
  have hfirst : doc = [root, (1, 0), (2, 0)] := (Option.some.inj hdoc).symm
  have hnone : replay loadedAb.tree ([], 0) [root, (1, 0), (2, 0)]
      [.networkRemove ⟨[.rootDir, .normal "s", .normal "f"], 2, 0, 0⟩,
        .networkAdd ⟨[.rootDir, .normal "s", .normal "f"], ⟨3, 1, .new '\n' 3 1⟩, 0⟩] = none := rfl
  rw [hfirst] at hsome
  exact absurd (hnone.symm.trans hsome) (by simp)

end FlatClient
