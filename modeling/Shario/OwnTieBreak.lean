import Shario.EnrolledAdds
import Shario.TextSplices

/-! The local add wins: its identity is the largest, so it lands right behind its parent, and no
add that it wakes comes between the two. -/
namespace OwnTieBreak

open CrdtTypes RowLayout FileTree FileSearch CharacterTree FilePlacement FileSafety DirectoryTree
  ShareQueue WorklistDrain TreeCalls QueueSteps IdeSteps QueueRuns NewIdentities Sessions TextSplices
  EnrolledAdds

/-- The rows `A` and the front `w` of the next row end with `y`. -/
def EndsIn (y : Identity) (A : List (List Identity)) (w : List Identity) : Prop :=
  (∃ u, w = u ++ [y]) ∨ w = [] ∧ ∃ C u, A = C ++ [u ++ [y]]

/-- In `g`, `x` stands behind the front of `f`, and so does all that is not of `f`. -/
structure Kept (f : SharFile) (A : List (List Identity)) (w : List Identity) (x : Identity)
    (g : SharFile) : Prop where
  rows : ∃ v B, g.projection = A ++ (w ++ x :: v) :: B
  fresh : ∀ y ∈ g.characters, y ∉ f.characters → Live g.characters y ∧ y ∈ text g

section File

variable {f g g' : SharFile} {A B : List (List Identity)} {w v : List Identity} {x y : Identity}
  {c : CRDT} {o : Outcome}

theorem endsIn_predecessor (h : EndsIn y A w) :
    predecessorIdentity (A ++ (w ++ x :: v) :: B) (A.length, w.length) = some y := by
  rcases h with ⟨u, rfl⟩ | ⟨rfl, C, u, rfl⟩
  · simp [predecessorIdentity]
  · simp [predecessorIdentity]

theorem endsIn_infix (h : EndsIn y A w) : [y, x] <:+: (A ++ (w ++ x :: v) :: B).flatten := by
  rcases h with ⟨u, rfl⟩ | ⟨rfl, C, u, rfl⟩
  · exact ⟨A.flatten ++ u, v ++ B.flatten, by simp⟩
  · exact ⟨C.flatten ++ u, v ++ B.flatten, by simp⟩

theorem place_live {pre post : List Identity} (h : Place f y A pre post B) (hroot : y ≠ root)
    (hl : Live f.characters y) : ∃ u, pre = u ++ [y] := by
  cases h with
  | root _ => exact absurd rfl hroot
  | live _ _ _ => exact ⟨_, rfl⟩
  | tomb ht _ => exact absurd hl ht.not_live

theorem landed_fresh {p : Projection} (hd : c.relation.deleted = false)
    (hperm : p.flatten.Perm (c.identity :: text g))
    (h : ∀ y ∈ g.characters, y ∉ f.characters → Live g.characters y ∧ y ∈ text g) :
    ∀ y ∈ (landed g c p).characters, y ∉ f.characters →
      Live (landed g c p).characters y ∧ y ∈ text (landed g c p) := by
  intro y hy hnew
  change Live (g.characters.insert c.identity c.relation) y ∧ y ∈ p.flatten
  rw [hperm.mem_iff, List.mem_cons]
  by_cases hyc : y = c.identity
  · subst hyc
    exact ⟨live_insert_self.mpr hd, Or.inl rfl⟩
  · have hy' : y ∈ g.characters := (Finmap.mem_insert.mp hy).resolve_left hyc
    obtain ⟨hl, hin⟩ := h y hy' hnew
    exact ⟨(live_insert_ne hyc).mpr hl, Or.inr hin⟩

/-- The largest identity lands right behind its parent. -/
theorem own_added (hs : Sound f) (hroot : c.relation.parent ≠ root)
    (hlive : Live f.characters c.relation.parent) (hin : c.relation.parent ∈ text f)
    (hnew : c.identity ∉ f.characters)
    (hfirst : FirstChild f.characters c.relation.parent c.identity)
    (hd : c.relation.deleted = false) (ha : Added f c o g) :
    ∃ A w, o = .ok (some (A.length, w.length)) ∧ EndsIn c.relation.parent A w ∧
      (∀ y, y ∈ A.flatten ∨ y ∈ w → y ∈ f.characters) ∧ Kept f A w c.identity g := by
  have hold : ∀ y ∈ f.characters, y ∉ f.characters → Live f.characters y ∧ y ∈ text f :=
    fun y hy hn => absurd hy hn
  have hknown : ∀ {A B : List (List Identity)} {pre post : List Identity},
      f.projection = A ++ (pre ++ post) :: B →
      ∀ y, y ∈ A.flatten ∨ y ∈ pre → y ∈ f.characters := by
    intro A B pre post hrows y hy
    apply hs.known
    rw [hrows, flatten_middle]
    rcases hy with hy | hy <;> simp [hy]
  cases ha with
  | orphan hp => exact absurd hlive.mem hp
  | duplicate _ hc => exact absurd hc hnew
  | unplaced _ _ ha _ hnot =>
    rcases ha with ⟨_, rfl⟩ | ⟨ht, _⟩
    · exact absurd hin hnot
    · exact absurd hlive ht.not_live
  | @char A pre post B _ _ hplace _ =>
    obtain ⟨htake, hdrop⟩ := first_stops hs hfirst hplace.rows
    obtain ⟨u, hu⟩ := place_live hplace hroot hlive
    rw [htake, hdrop, List.append_nil]
    refine ⟨A, pre, rfl, Or.inl ⟨u, hu⟩, hknown hplace.rows, ⟨post, B, rfl⟩,
      landed_fresh hd ?_ hold⟩
    rw [text, hplace.rows]
    exact insert_perm _ _ _ _ _
  | dropped _ _ hr _ => exact absurd hr hroot
  | @line A pre post B _ _ _ hplace =>
    obtain ⟨u, hu⟩ := place_live hplace hroot hlive
    refine ⟨A ++ [pre], [], by simp, Or.inr ⟨rfl, A, u, by rw [hu]⟩, fun y hy => ?_,
      ⟨post, B, by simp [landed]⟩, landed_fresh hd ?_ hold⟩
    · apply hknown hplace.rows
      simpa using hy
    · rw [text, hplace.rows]
      exact split_perm _ _ _ _ _
  | lineAbove _ _ ht _ => exact absurd hlive ht.not_live

theorem kept_added (hs : Sound g) (h : Kept f A w x g)
    (hfront : ∀ y, y ∈ A.flatten ∨ y ∈ w → y ∈ f.characters) (hrooted : root ∈ f.characters)
    (hd : c.relation.deleted = false) (hp : c.relation.parent ∉ f.characters)
    (ha : Added g c o g') : Kept f A w x g' := by
  obtain ⟨v, B, hrows⟩ := h.rows
  have hA : c.relation.parent ∉ A.flatten := fun hy => hp (hfront _ (Or.inl hy))
  have hw : c.relation.parent ∉ w := fun hy => hp (hfront _ (Or.inr hy))
  have hlive : c.relation.parent ∈ g.characters → Live g.characters c.relation.parent :=
    fun hm => (h.fresh _ hm hp).1
  have hne : c.relation.parent ≠ root := fun he => hp (he ▸ hrooted)
  cases ha with
  | orphan _ => exact h
  | duplicate _ _ => exact h
  | unplaced _ _ _ _ _ => exact h
  | @char A' pre post B' _ _ hplace _ =>
    obtain ⟨u, rfl⟩ := place_live hplace hne (hlive (Place.parent_mem hs hplace))
    have he := hrows.symm.trans hplace.rows
    rw [List.append_assoc, List.singleton_append] at he
    obtain ⟨v', D, hv⟩ := front_rows_kept (C := B') (s :=
      post.takeWhile (skips g.characters c.relation.parent c.identity) ++ c.identity ::
        post.dropWhile (skips g.characters c.relation.parent c.identity)) he hA hw
    refine ⟨⟨v', D, ?_⟩, landed_fresh hd ?_ h.fresh⟩
    · rw [← hv]
      simp [landed]
    · rw [text, hplace.scan (skips g.characters c.relation.parent c.identity)]
      exact insert_perm _ _ _ _ _
  | dropped _ _ hr _ => exact absurd hr hne
  | @line A' pre post B' _ _ _ hplace =>
    obtain ⟨u, rfl⟩ := place_live hplace hne (hlive (Place.parent_mem hs hplace))
    have he := hrows.symm.trans hplace.rows
    rw [List.append_assoc, List.singleton_append] at he
    obtain ⟨v', D, hv⟩ := front_rows_kept (C := (c.identity :: post) :: B') (s := []) he hA hw
    refine ⟨⟨v', D, ?_⟩, landed_fresh hd ?_ h.fresh⟩
    · rw [← hv]
      rfl
    · rw [text, hplace.rows]
      exact split_perm _ _ _ _ _
  | lineAbove _ _ ht _ => exact absurd (hlive ht.mem) ht.not_live

end File

def nextIdentity (q : SharQueue) : Identity := (q.counter + 1, q.peer)

/-- The add does not name its parent by its own tag, and either nothing waits for its tag or for
its identity, or no add that waits on the file can be woken by a character that the file has: no
waiting add has its tag. -/
def Undisturbed (q : SharQueue) (ref : FileRef) (f : SharFile) (op : IdeAdd) : Prop :=
  tagOf op ≠ some op.tag ∧
    ((∀ o, ¬ Waits q.ideTagBacklog op.tag o ∧ ¬ Waits q.ideBacklog (nextIdentity q) o) ∨
    ∀ k o b, Waits q.ideBacklog k o → q.tree.findFile o.filePath = some ref → k ∈ f.characters →
      Waiting q b → b.tag ≠ op.tag → q.tagIdentities.lookup b.tag ≠ some k)

/-- What holds between the landing of `op` and the end of its call. -/
structure Calm (q : SharQueue) (op : IdeAdd) (ref : FileRef) (f : SharFile)
    (A : List (List Identity)) (w : List Identity) (base : List Callback) (hand : Option IdeAdd)
    (p : SharQueue) : Prop where
  sound : AllFiles Sound p.tree
  routes : SameRoutes q.tree p.tree
  enrolled : Enrolled hand p
  tags : p.tagIdentities = (enlisted q op (q.counter + 1)).tagIdentities
  file : ∃ g, p.tree.getFile ref = some g ∧ Kept f A w (nextIdentity q) g
  logged : base <+: p.fired
  pool : ∀ b, HeldIn p hand b → Waiting q b
  work : ∀ o, hand = some o ∨ o ∈ p.ideWorklist → q.tree.findFile o.filePath = some ref →
    ∀ k, p.ideParent o = some k → k ∉ f.characters
  /-- While there is something to try. -/
  apart : hand ≠ none ∨ p.ideWorklist ≠ [] → ∀ k o, Waits p.ideBacklog k o →
    q.tree.findFile o.filePath = some ref → k ∈ f.characters → ∀ b, Waiting q b → p.tagIdentities.lookup b.tag ≠ some k

section Rounds

variable {q p p' : SharQueue} {op o : IdeAdd} {ref : FileRef} {f : SharFile}
  {A : List (List Identity)} {w : List Identity} {base : List Callback} {hand : Option IdeAdd}
  {x k : Identity} {t : SharDirectory} {r : Outcome}

theorem calm_popped (h : Calm q op ref f A w base none p) (hpop : p.popIde = some (o, p')) :
    Calm q op ref f A w base (some o) p' := by
  have hheld := held_popped hpop
  have henrolled := enrolled_popped h.enrolled hpop
  obtain ⟨rest, hl, rfl⟩ := popIde_eq hpop
  refine ⟨h.sound, h.routes, henrolled, h.tags, h.file, h.logged,
    fun b hb => h.pool b ((hheld b).mp hb), fun i hi => h.work i (Or.inr ?_),
    fun _ => h.apart (Or.inr (by simp [hl]))⟩
  rw [hl, List.mem_cons]
  rcases hi with hi | hi
  · exact Or.inl (Option.some.inj hi).symm
  · exact Or.inr hi

theorem unrouted_added {path : PathBuf} {c : CRDT} (hr : t.findFile path ≠ some ref)
    {u : SharDirectory} (ha : TreeAdded t path c r u) : u.getFile ref = t.getFile ref := by
  cases ha with
  | lost _ => rfl
  | @routed ref' _ _ _ hr' _ _ =>
    refine SharDirectory.getFile_setFile_ne fun he => hr ?_
    rw [he]
    exact hr'

variable (hfront : ∀ y, y ∈ A.flatten ∨ y ∈ w → y ∈ f.characters) (hrooted : root ∈ f.characters)

include hfront hrooted

theorem calm_file (h : Calm q op ref f A w base (some o) p) (hp : p.ideParent o = some k)
    (ha : TreeAdded p.tree o.filePath (ideCrdt o x k) r t) :
    ∃ g, t.getFile ref = some g ∧ Kept f A w (nextIdentity q) g := by
  obtain ⟨g, hg, hkept⟩ := h.file
  by_cases hr : p.tree.findFile o.filePath = some ref
  · obtain ⟨g', ha', hg'⟩ := routed_added hr hg ha
    have hnot : (ideCrdt o x k).relation.parent ∉ f.characters :=
      h.work o (Or.inl rfl) (by rw [← h.routes.findFile]; exact hr) k hp
    exact ⟨g', hg', kept_added (h.sound ref g hg) hkept hfront hrooted rfl hnot ha'⟩
  · exact ⟨g, by rw [unrouted_added hr ha, hg], hkept⟩

theorem calm_landed {pos : Position} (h : Calm q op ref f A w base (some o) p)
    (hl : Lands p o x k pos t) :
    Calm q op ref f A w base none ((withTree p t).queueIdeBacklog x) := by
  have htags : ((withTree p t).queueIdeBacklog x).tagIdentities = p.tagIdentities :=
    queueIde_tags _ _
  have hback : ∀ j i, Waits ((withTree p t).queueIdeBacklog x).ideBacklog j i →
      Waits p.ideBacklog j i := fun j i hw => ((queueIde_backlog _ _ _ _).mp hw).1
  refine ⟨?_, ?_, enrolled_landed h.enrolled, htags.trans h.tags, ?_, ?_, fun b hb =>
    h.pool b (held_any (held_landed b hb)), fun i hi hr j hj => ?_, fun _ j i hw hr hj b hb => ?_⟩
  · rw [queueIde_tree]
    exact hl.added.sound h.sound
  · rw [queueIde_tree]
    exact h.routes.trans hl.added.routes
  · rw [queueIde_tree]
    exact calm_file hfront hrooted h hl.resolved hl.added
  · rw [queueIde_fired]
    exact h.logged
  · rw [ideParent_congr htags] at hj
    rcases (queueIde_worklist _ _ _).mp (hi.resolve_left (by simp)) with hi | hw
    · exact h.work i (Or.inr hi) hr j hj
    · rcases h.enrolled.keyed x i hw with hx | hret
      · obtain rfl : x = j := Option.some.inj (hx.symm.trans hj)
        exact fun hin => h.apart (Or.inl (by simp)) x i hw hr hin o (h.pool o (Or.inl rfl)) hl.tagged
      · exact absurd hl.tagged (hret.2 o.tag)
  · rw [htags]
    exact h.apart (Or.inl (by simp)) j i (hback j i hw) hr hj b hb

theorem calm_held (h : Calm q op ref f A w base (some o) p) (hh : Held p o p') :
    Calm q op ref f A w base none p' := by
  have henrolled := enrolled_held h.enrolled hh
  have hpool : ∀ b, HeldIn p' none b → Waiting q b := fun b hb => h.pool b (held_back hh b hb)
  have hapart := h.apart (Or.inl (by simp))
  have hwork : ∀ {i : IdeAdd}, (none : Option IdeAdd) = some i ∨ i ∈ p.ideWorklist →
      some o = some i ∨ i ∈ p.ideWorklist := fun hi => Or.inr (hi.resolve_left (by simp))
  cases hh with
  | untagged _ _ =>
    exact ⟨h.sound, h.routes, henrolled, h.tags, h.file, h.logged, hpool,
      fun i hi => h.work i (hwork hi), fun _ => hapart⟩
  | repeated hp _ ha =>
    exact ⟨ha.sound h.sound, h.routes.trans ha.routes, henrolled, h.tags,
      calm_file hfront hrooted h hp ha, h.logged, hpool, fun i hi => h.work i (hwork hi),
      fun _ => hapart⟩
  | early hp _ ha =>
    refine ⟨ha.sound h.sound, h.routes.trans ha.routes, henrolled, h.tags,
      calm_file hfront hrooted h hp ha, h.logged, hpool, fun i hi => h.work i (hwork hi),
      fun _ j i hw hr hj => ?_⟩
    rcases waits_push.mp hw with hw | ⟨rfl, rfl⟩
    · exact hapart j i hw hr hj
    · exact absurd hj (h.work i (Or.inl rfl) hr j hp)

theorem calm_retried (h : Calm q op ref f A w base (some o) p) (hr : RetriedIde p o p') :
    Calm q op ref f A w base none p' := by
  cases hr with
  | held hh => exact calm_held hfront hrooted h hh
  | landed hl =>
    have hlanded := calm_landed hfront hrooted h hl
    exact { hlanded with
      enrolled := enrolled_shown hlanded.enrolled _
      logged := hlanded.logged.trans (List.prefix_append _ _) }

theorem calm_drains (h : Calm q op ref f A w base none p) :
    ∃ p', p.drainIdeWorklist = some p' ∧ Calm q op ref f A w base none p' := by
  have hstep : ∀ p₁ i p₂ p₃, Calm q op ref f A w base none p₁ → IdeDraining p p₁ →
      p₁.popIde = some (i, p₂) → RetriedIde p₂ i p₃ → Calm q op ref f A w base none p₃ :=
    fun _ _ _ _ h₁ _ hpop hr => calm_retried hfront hrooted (calm_popped h₁ hpop) hr
  obtain ⟨p', hp'⟩ := drainIde_returns (fun _ h₁ => h₁.sound) hstep h
    fun _ _ _ h₁ _ hpop => enrolled_safe (calm_popped h₁ hpop).enrolled
  exact ⟨p', hp', (drainIde_keeps (fun _ h₁ => h₁.sound) hstep h hp').1⟩

end Rounds

/-- The new character stands right behind `y`, and both operations of the callback say so. -/
structure RightBehind (q : SharQueue) (op : IdeAdd) (ref : FileRef) (y : Identity)
    (q' : SharQueue) : Prop where
  text : ∃ g, q'.tree.getFile ref = some g ∧ [y, nextIdentity q] <:+: TextSplices.text g
  shown : ∃ l l' a b, q'.fired = q.fired ++ l ++ .ideAdd a b :: l' ∧
    a.crdt = ideCrdt op (nextIdentity q) y ∧ b.crdt = ideCrdt op (nextIdentity q) y

section Call

variable {q q₂ : SharQueue} {op : IdeAdd} {ref : FileRef} {f g : SharFile} {y x p : Identity}
  {A : List (List Identity)} {w : List Identity} {base : List Callback} {pos : Position}
  {t : SharDirectory}

theorem inner_lands (hp : q.ideParent op = some p) (hx : q.tagIdentities.lookup op.tag = some x)
    (he : q.tree.addCrdt op.filePath op.lineHint (ideCrdt op x p) = some (.ok (some pos), t))
    (dependants : SharQueue → Identity → Option SharQueue) :
    q.addIdeOperationInner op dependants =
      (dependants (withTree q t) x).map fun q => q.fire (ideShown q op x p pos) := by
  have he' : q.tree.addCrdt op.filePath op.lineHint
      ⟨x.1, x.2, .new op.val p.1 p.2⟩ = some (.ok (some pos), t) := he
  unfold SharQueue.addIdeOperationInner
  simp only [hp, hx, Option.bind_eq_bind, Option.bind_some, he']
  change (dependants (withTree q t) x).bind _ = _
  cases dependants (withTree q t) x <;> rfl

theorem enlisted_parent (hle : y.1 ≤ q.counter) (hp : q.ideParent op = some y)
    (hown : tagOf op ≠ some op.tag) :
    (enlisted q op (q.counter + 1)).ideParent op = some y := by
  cases htag : tagOf op with
  | none =>
    rw [(parent_untagged q q (enlisted q op (q.counter + 1)) [] [] (s := ⟨0, op⟩) htag).1]
    exact hp
  | some tag =>
    rw [(meant_of_tagOf q q [] ⟨0, op⟩ htag).2] at hp
    rw [(meant_of_tagOf q (enlisted q op (q.counter + 1)) [] ⟨0, op⟩ htag).2]
    exact (enlisted_lookup hle).mpr ⟨hp, fun ht => hown (ht ▸ htag)⟩

theorem calm_start (hidle : Idle q) (henrolled : Enrolled none q) (hbelow : Below q.counter q)
    (hf : q.tree.getFile ref = some f) (hclear : Undisturbed q ref f op)
    (hl : Lands (enlisted q op (q.counter + 1)) op (nextIdentity q) y pos t)
    (hg : t.getFile ref = some g) (hkept : Kept f A w (nextIdentity q) g) :
    Calm q op ref f A w q.fired none
      ((withTree (enlisted q op (q.counter + 1)) t).queueIdeBacklog (nextIdentity q)) := by
  have hnext : ∀ k ∈ f.characters, k.1 ≤ q.counter := (hbelow.files ref f hf).2
  have hnew : nextIdentity q ∉ f.characters := fun hin => by
    have := hnext _ hin
    simp [nextIdentity] at this
  have hreceived := enrolled_received henrolled (names_of_parent hl.resolved)
  have htags : ((withTree (enlisted q op (q.counter + 1)) t).queueIdeBacklog
      (nextIdentity q)).tagIdentities = (enlisted q op (q.counter + 1)).tagIdentities :=
    queueIde_tags _ _
  refine ⟨?_, ?_, enrolled_landed hreceived, htags, ⟨g, ?_, hkept⟩, ?_, fun b hb => ?_,
    fun i hi hr k hk => ?_, fun htry k i hw hr hk b hb => ?_⟩
  · rw [queueIde_tree]
    refine hl.added.sound ?_
    rw [enlisted_tree]
    exact fun ref' f' hf' => (hbelow.files ref' f' hf').1
  · rw [queueIde_tree]
    have hroutes := hl.added.routes
    rw [enlisted_tree] at hroutes
    exact hroutes
  · rw [queueIde_tree]
    exact hg
  · rw [queueIde_fired, withTree_fired, enlisted_fired]
    exact List.prefix_append _ _
  · exact waiting_of_held hidle.ide (held_enlisted b (held_landed b hb))
  · rw [ideParent_congr htags] at hk
    suffices hki : (enlisted q op (q.counter + 1)).ideParent i = some (nextIdentity q) by
      obtain rfl : nextIdentity q = k := Option.some.inj (hki.symm.trans hk)
      exact hnew
    rcases (queueIde_worklist _ _ _).mp (hi.resolve_left (by simp)) with hi | hw
    · rcases (enlisted_worklist _ _ _ _).mp hi with hi | hw
      · rw [hidle.ide] at hi
        exact absurd hi (by simp)
      · have htag := henrolled.tagKeyed op.tag i hw
        rw [(meant_of_tagOf q (enlisted q op (q.counter + 1)) [] ⟨0, i⟩ htag).2]
        exact hl.tagged
    · exact (hreceived.keyed _ i hw).resolve_right fun hret => hret.2 op.tag hl.tagged
  · have hback : Waits (enlisted q op (q.counter + 1)).ideBacklog k i :=
      ((queueIde_backlog _ _ _ _).mp hw).1
    rw [enlisted_backlog] at hback
    have hclear' := hclear.2.resolve_left fun hnone => htry.resolve_left (by simp) <|
      List.eq_nil_iff_forall_not_mem.mpr fun j hj => by
        rcases (queueIde_worklist _ _ _).mp hj with hj | hw'
        · rcases (enlisted_worklist _ _ _ _).mp hj with hj | hw'
          · rw [hidle.ide] at hj
            exact absurd hj (by simp)
          · exact (hnone j).1 hw'
        · change Waits (enlisted q op (q.counter + 1)).ideBacklog (nextIdentity q) j at hw'
          rw [enlisted_backlog] at hw'
          exact (hnone j).2 hw'
    rw [htags]
    intro hlookup
    obtain ⟨hlookup, hne⟩ := (enlisted_lookup (hnext k hk)).mp hlookup
    exact hclear' k i b hback hr hk hb hne hlookup

theorem shown_parent (hr : q.tree.findFile op.filePath = some ref)
    (hcalm : Calm q op ref f A w base none q₂) (hends : EndsIn y A w) :
    (SharQueue.rewriteParent q₂.tree op.filePath (A.length, w.length)
      ⟨q₂.toRelativePath op.filePath, ideCrdt op (nextIdentity q) y, A.length⟩).crdt =
      ideCrdt op (nextIdentity q) y := by
  obtain ⟨g, hg, hkept⟩ := hcalm.file
  obtain ⟨v, B, hrows⟩ := hkept.rows
  have hpred : q₂.tree.predecessorIdentity op.filePath (A.length, w.length) = .ok (some y) := by
    unfold SharDirectory.predecessorIdentity
    rw [hcalm.routes.findFile, hr, Option.bind_some, hg]
    change Except.ok (predecessorIdentity g.projection _) = _
    rw [hrows, endsIn_predecessor hends]
  unfold SharQueue.rewriteParent
  rw [hpred]
  rfl

theorem own_add (hidle : Idle q) (henrolled : Enrolled none q) (hbelow : Below q.counter q)
    (hroom : q.counter + 1 < 2 ^ 32) (hr : q.tree.findFile op.filePath = some ref)
    (hf : q.tree.getFile ref = some f) (hp : q.ideParent op = some y) (hroot : y ≠ root)
    (hlive : Live f.characters y) (hin : y ∈ text f) (hclear : Undisturbed q ref f op) :
    ∃ q', q.addIdeOperation op = some q' ∧ RightBehind q op ref y q' := by
  obtain ⟨hs, hle⟩ := hbelow.files ref f hf
  have hnext : ∀ e ∈ f.characters, e.1 < (nextIdentity q).1 :=
    fun e he => Nat.lt_succ_of_le (hle e he)
  have hsound : AllFiles Sound q.tree := fun ref' f' hf' => (hbelow.files ref' f' hf').1
  have hparent := enlisted_parent (hle y hlive.mem) hp hclear.1
  have htag : (enlisted q op (q.counter + 1)).tagIdentities.lookup op.tag =
      some (nextIdentity q) := by
    rw [enlisted_tags, Finmap.lookup_insert]
    rfl
  obtain ⟨o, t, he, hadded⟩ := tree_add_cases hsound op.filePath op.lineHint
    (ideCrdt op (nextIdentity q) y)
  obtain ⟨g, ha, hg⟩ := routed_added hr hf hadded
  obtain ⟨A, w, rfl, hends, hfront, hkept⟩ := own_added (c := ideCrdt op (nextIdentity q) y) hs
    hroot hlive hin (fun hin => absurd (hnext _ hin) (Nat.lt_irrefl _)) (newest_first hnext y) rfl ha
  have hl : Lands (enlisted q op (q.counter + 1)) op (nextIdentity q) y (A.length, w.length) t :=
    ⟨hparent, htag, by rwa [enlisted_tree]⟩
  have hinner := inner_lands hparent htag (by rw [enlisted_tree]; exact he) SharQueue.clearIdeBacklog
  have hstart := calm_start hidle henrolled hbelow hf hclear hl hg hkept
  obtain ⟨q₂, hq₂, hcalm⟩ : ∃ q₂, (withTree (enlisted q op (q.counter + 1)) t).clearIdeBacklog
      (nextIdentity q) = some q₂ ∧ Calm q op ref f A w q.fired none q₂ := by
    rcases clearIde_eq (q := withTree (enlisted q op (q.counter + 1)) t) (nextIdentity q) with hc | hc
    · rw [hc]
      exact calm_drains hfront hs.rooted.root_mem hstart
    · exact ⟨_, hc, hstart⟩
  rw [hq₂, Option.map_some] at hinner
  have hcalm₃ : Calm q op ref f A w (q₂.fire (ideShown q₂ op (nextIdentity q) y
      (A.length, w.length))).fired none (q₂.fire (ideShown q₂ op (nextIdentity q) y
      (A.length, w.length))) :=
    { hcalm with
      enrolled := enrolled_shown hcalm.enrolled _
      logged := List.prefix_refl _ }
  obtain ⟨q', hq', hcalm'⟩ := calm_drains hfront hs.rooted.root_mem hcalm₃
  refine ⟨q', ?_, ?_, ?_⟩
  · have htick : tick q.counter = some (q.counter + 1) := tick_eq_some.mpr ⟨hroom, rfl⟩
    have hcall : q.addIdeOperation op = ((enlisted q op (q.counter + 1)).addIdeOperationInner op
        SharQueue.clearIdeBacklog).bind SharQueue.drainIdeWorklist := by
      simp only [SharQueue.addIdeOperation, Option.bind_eq_bind, htick, Option.bind_some]
      rfl
    rw [hcall, hinner, Option.bind_some, hq']
  · obtain ⟨g', hg', hkept'⟩ := hcalm'.file
    obtain ⟨v, B, hrows⟩ := hkept'.rows
    refine ⟨g', hg', ?_⟩
    rw [text, hrows]
    exact endsIn_infix hends
  · obtain ⟨l, hl⟩ := hcalm.logged
    obtain ⟨l', hl'⟩ := hcalm'.logged
    refine ⟨l, l', ⟨q₂.toRelativePath op.filePath, ideCrdt op (nextIdentity q) y, A.length⟩, _, ?_, rfl,
      shown_parent hr hcalm hends⟩
    rw [← hl', fire_fired, ← hl]
    simp [ideShown]

end Call

/-- What is said of an add under `y` in the file at `ref`: the counter covers every id, and the new
character stands right behind `y`. -/
def WinsTieBreak (q : SharQueue) (op : IdeAdd) (ref : FileRef) (y : Identity) : Prop :=
  (∀ file ∈ q.tree.files, ∀ x ∈ file.characters, x.1 ≤ q.counter) ∧
    ∃ q', q.addIdeOperation op = some q' ∧ RightBehind q op ref y q'

/-- The add that comes in finds its parent in the projection of its file. -/
structure FindsParent (q : SharQueue) (op : IdeAdd) (ref : FileRef) (f : SharFile)
    (y : Identity) : Prop where
  routed : q.tree.findFile op.filePath = some ref
  file : q.tree.getFile ref = some f
  resolved : q.ideParent op = some y
  notRoot : y ≠ root
  live : Live f.characters y
  projected : y ∈ text f

section Run

variable {dirPath : PathBuf} {read : Except String (List FsEntry)} {peer : ℕ} {q₀ q : SharQueue}
  {calls : List QueueCall} {op : IdeAdd} {ref : FileRef} {f : SharFile} {y : Identity}

/-- In every state of every run, a local add that nothing disturbs wins. -/
theorem own_add_wins (hl : SharQueue.new dirPath read peer = some (.ok q₀))
    (hrun : calls.foldlM QueueCall.apply q₀ = some q) (hroom : q.counter + 1 < 2 ^ 32)
    (hfinds : FindsParent q op ref f y) (hclear : Undisturbed q ref f op) :
    WinsTieBreak q op ref y := by
  obtain ⟨hbelow₀, hidle₀⟩ := loaded_below hl
  have hbelow : Below q.counter q := (run_below hidle₀ hbelow₀ hrun).1
  have hsound : AllFiles Sound q₀.tree := fun ref' f' hf' => (hbelow₀.files ref' f' hf').1
  obtain ⟨henrolled, _, hidle⟩ := run_enrolled hsound hidle₀ (loaded_enrolled hl) hrun
  refine ⟨fun file hfile => ?_, own_add hidle henrolled hbelow hroom hfinds.routed hfinds.file
    hfinds.resolved hfinds.notRoot hfinds.live hfinds.projected hclear⟩
  obtain ⟨ref', hf'⟩ := mem_files.mp hfile
  exact (hbelow.files ref' file hf').2

end Run

/-- What an add under `x` meets in the first file. -/
structure Met where
  counter : ℕ
  peer : ℕ
  ref : Option FileRef
  parent : Option Identity
  text : Option (List Identity)
  deleted : Option Bool
  deriving DecidableEq

def firstText (q : SharQueue) : Option (List Identity) := (q.tree.getFile ([], 0)).map text

def met (op : IdeAdd) (x : Identity) (q : SharQueue) : Met :=
  ⟨q.counter, q.peer, q.tree.findFile op.filePath, q.ideParent op, firstText q,
    ((q.tree.getFile ([], 0)).bind fun f => f.characters.lookup x).map CrdtRelation.deleted⟩

theorem finds_of_met {q : SharQueue} {op : IdeAdd} {x : Identity} {n peer : ℕ}
    {l : List Identity} (h : met op x q = ⟨n, peer, some ([], 0), some x, some l, some false⟩)
    (hroot : x ≠ root) (hin : x ∈ l) :
    q.counter = n ∧ q.peer = peer ∧ ∃ f, FindsParent q op ([], 0) f x := by
  simp only [met, Met.mk.injEq] at h
  obtain ⟨hcounter, hpeer, hroute, hparent, htext, hdeleted⟩ := h
  simp only [firstText, Option.map_eq_some_iff] at htext
  obtain ⟨f, hf, rfl⟩ := htext
  rw [hf, Option.bind_some, Option.map_eq_some_iff] at hdeleted
  exact ⟨hcounter, hpeer, f, hroute, hf, hparent, hroot, hdeleted, hin⟩

def loadedRun (read : Except String (List FsEntry)) (calls : List QueueCall) : Option SharQueue :=
  match SharQueue.new [.rootDir, .normal "s"] read 5 with
  | some (.ok q) => calls.foldlM QueueCall.apply q
  | _ => none

def firstPath : PathBuf := [.rootDir, .normal "s", .normal "f"]

def secondPath : PathBuf := [.rootDir, .normal "s", .normal "g"]

/-- A character of another peer, and an add that waits for the tag 9. -/
def tagAwaited : List QueueCall :=
  [.network (.add ⟨[.normal "f"], ⟨3, 7, .new 'a' 0 0⟩, 0⟩),
    .ideAdd ⟨firstPath, none, none, some 9, 'b', 1, 0⟩]

def lineUnderFirst : IdeAdd := ⟨firstPath, some 3, some 7, none, '\n', 9, 0⟩

theorem own_add_wins_awaited : ∃ q : SharQueue, q.counter = 4 ∧
    WinsTieBreak q lineUnderFirst ([], 0) (3, 7) := by
  have hload : ∃ q₀, SharQueue.new [.rootDir, .normal "s"] emptyEntries 5 = some (.ok q₀) ∧
      loadedRun emptyEntries tagAwaited = tagAwaited.foldlM QueueCall.apply q₀ := ⟨_, rfl, rfl⟩
  have hrun : (loadedRun emptyEntries tagAwaited).map (fun q =>
      (met lineUnderFirst (3, 7) q, q.ideBacklog)) =
      some (⟨4, 5, some ([], 0), some (3, 7), some [(0, 0), (3, 7)], some false⟩, ∅) := by
    decide +kernel
  obtain ⟨q₀, hl, hq₀⟩ := hload
  rw [Option.map_eq_some_iff] at hrun
  obtain ⟨q, hq, hmet⟩ := hrun
  rw [Prod.mk.injEq] at hmet
  obtain ⟨hcounter, _, f, hfinds⟩ := finds_of_met hmet.1 (by decide) (by decide)
  have hclear : Undisturbed q ([], 0) f lineUnderFirst := by
    refine ⟨by decide, Or.inr fun k o b hw => ?_⟩
    rw [hmet.2] at hw
    simp [Waits] at hw
  exact ⟨q, hcounter, own_add_wins hl (hq₀ ▸ hq) (by rw [hcounter]; decide) hfinds hclear⟩

def lineBreakIn (file : String) (id parentId parentPeer : ℕ) : QueueCall :=
  .network (.add ⟨[.normal file], ⟨id, 7, .new '\n' parentId parentPeer⟩, 0⟩)

def removalIn (file : String) (id peer : ℕ) : QueueCall :=
  .network (.remove ⟨[.normal file], id, peer, 0⟩)

/-- In either file a removal takes a line break of this server out of the rows in place of
another one, and the removal of the lost one marks it: `(6, 5)` in `g` and `(10, 5)` in `f`. Adds
wait that have the tags of these two, and `(11, 5)` waits under the second. -/
def taken : List QueueCall :=
  [removalIn "g" 2 0, lineBreakIn "g" 3 2 0, lineBreakIn "g" 4 2 0,
    .ideAdd ⟨firstPath, none, none, some 9, 'b', 1, 0⟩,
    .ideAdd ⟨secondPath, some 4, some 7, none, '\n', 1, 0⟩,
    removalIn "g" 3 7,
    .ideAdd ⟨secondPath, some 6, some 5, none, 'b', 2, 0⟩,
    removalIn "g" 6 5,
    removalIn "f" 1 0, lineBreakIn "f" 8 1 0, lineBreakIn "f" 9 1 0,
    .ideAdd ⟨firstPath, some 9, some 7, none, '\n', 2, 0⟩,
    removalIn "f" 8 7,
    .ideAdd ⟨firstPath, some 10, some 5, none, 'o', 3, 0⟩,
    removalIn "f" 10 5,
    .ideAdd ⟨firstPath, some 9, some 7, none, 'p', 4, 0⟩]

def twoFiles : Except String (List FsEntry) := .ok [.file "f" (.ok ['c']), .file "g" (.ok ['a'])]

/-- The add under the last one, with the tag that an add waits for. -/
def underLast : IdeAdd := ⟨firstPath, some 12, some 5, none, 'x', 9, 0⟩

/-- It wakes `(6, 5)` in `f`, that wakes `(10, 5)` in `g`, and that wakes `(11, 5)`, which lands
between the parent and the new character. -/
theorem woken_comes_between : ¬ ∀ (dirPath : PathBuf) (read : Except String (List FsEntry))
    (peer : ℕ) (q₀ : SharQueue) (calls : List QueueCall) (q : SharQueue) (op : IdeAdd)
    (ref : FileRef) (f : SharFile) (y : Identity),
    SharQueue.new dirPath read peer = some (.ok q₀) →
    calls.foldlM QueueCall.apply q₀ = some q →
    (∀ received, .network (.add received) ∈ calls → received.crdt.peer ≠ peer) →
    q.counter + 1 < 2 ^ 32 → FindsParent q op ref f y → WinsTieBreak q op ref y := by
  intro h
  have hload : ∃ q₀, SharQueue.new [.rootDir, .normal "s"] twoFiles 5 = some (.ok q₀) ∧
      loadedRun twoFiles taken = taken.foldlM QueueCall.apply q₀ := ⟨_, rfl, rfl⟩
  have hbefore : (loadedRun twoFiles taken).map (met underLast (12, 5)) =
      some ⟨12, 5, some ([], 0), some (12, 5), some [(9, 7), (12, 5), (8, 7), (0, 0)],
        some false⟩ := by decide +kernel
  have hafter : ((loadedRun twoFiles taken).bind fun q => q.addIdeOperation underLast).bind
      firstText = some [(9, 7), (12, 5), (11, 5), (13, 5), (6, 5), (8, 7), (0, 0)] := by
    decide +kernel
  have hforeign : ∀ received, .network (.add received) ∈ taken → received.crdt.peer ≠ 5 := by
    simp [taken, removalIn, lineBreakIn]
  obtain ⟨q₀, hl, hq₀⟩ := hload
  rw [Option.map_eq_some_iff] at hbefore
  obtain ⟨q, hq, hmet⟩ := hbefore
  obtain ⟨hcounter, hpeer, f, hfinds⟩ := finds_of_met hmet (by decide) (by decide)
  obtain ⟨_, q', hq', ⟨g, hg, hinfix⟩, _⟩ := h _ _ _ _ _ q underLast ([], 0) f (12, 5) hl
    (hq₀ ▸ hq) hforeign (by rw [hcounter]; decide) hfinds
  rw [hq, Option.bind_some, hq', Option.bind_some, firstText, hg, Option.map_some,
    Option.some.injEq] at hafter
  rw [hafter, nextIdentity, hcounter, hpeer] at hinfix
  exact absurd hinfix (by decide)

end OwnTieBreak
