import Shario.FileShape

/-! The order of the projection: when no sibling with a larger id is in the way, an
added character lands where the document order of the character tree has it. -/
namespace DocumentOrder

open CrdtTypes RowLayout FileTree FileSearch TreeOrder CharacterTree FilePlacement FileSafety
  FileShape

abbrev DocBefore (m : Characters) : Identity → Identity → Prop :=
  Before (parentOf m) root sibling

structure Canonical (f : SharFile) : Prop extends Shape f where
  ordered : f.projection.flatten.Pairwise (DocBefore f.characters)

/-- Of the subtrees of `y` that precede its child `x`, only their own roots are live, and
none of these is a line break. -/
def ClearRun (m : Characters) (y x : Identity) : Prop :=
  ∀ s e, parentOf m s = some y → sibling s x → Under (parentOf m) root s e → Live m e →
    e = s ∧ ¬ Breaks m e

/-- Nothing is live in the subtrees of `y` that precede its child `x`. -/
def BareRun (m : Characters) (y x : Identity) : Prop :=
  ∀ s e, parentOf m s = some y → sibling s x → Under (parentOf m) root s e → ¬ Live m e

/-- The run is clear at each level from the tombstone `x` up to its anchor, not the root. -/
inductive ClearClimb (m : Characters) : Identity → Prop where
  | live {x a} : parentOf m x = some a → Live m a → a ≠ root → ClearRun m a x → ClearClimb m x
  | tomb {x y} : parentOf m x = some y → Tomb m y → ClearRun m y x → ClearClimb m y →
      ClearClimb m x

section Order

variable {m : Characters} {x y e : Identity} {rel : CrdtRelation}

theorem not_before_root : ¬ DocBefore m e root := by
  rintro ⟨p, q, _, hq, hl⟩
  rw [path_unique (parentOf_root m) hq .root] at hl
  exact List.not_lex_nil hl

theorem before_of_not (hm : Rooted m) (hx : x ∈ m) (he : e ∈ m) (hne : e ≠ x)
    (h : ¬ DocBefore m e x) : DocBefore m x e := by
  obtain ⟨p, hp⟩ := hm.climbs e he
  obtain ⟨q, hq⟩ := hm.climbs x hx
  exact (before_trichotomy hp hq hne).resolve_left h

theorem parent_doc_before (hm : Rooted m) (hxy : parentOf m x = some y) : DocBefore m y x := by
  obtain ⟨hne, rel, hl, rfl⟩ := parentOf_eq_some.mp hxy
  obtain ⟨p, hp⟩ := hm.climbs _ (hm.parent_mem hl)
  exact parent_before hxy hp

/-- Everything in `before` precedes `x`, which precedes everything in `after`. -/
def Splits (m : Characters) (x : Identity) (before after : List Identity) : Prop :=
  (∀ e ∈ before, DocBefore m e x) ∧ ∀ e ∈ after, DocBefore m x e

theorem splits_before (hm : Rooted m) (hxy : parentOf m x = some y) {before : List Identity}
    (hbefore : ∀ e ∈ before, e = y ∨ DocBefore m e y) : ∀ e ∈ before, DocBefore m e x := by
  intro e he
  have hyx := parent_doc_before hm hxy
  rcases hbefore e he with rfl | hb
  · exact hyx
  · exact before_trans (parentOf_root m) hb hyx

theorem clear_between (hxy : parentOf m x = some y) (hclear : ClearRun m y x) (he : Live m e)
    (hye : DocBefore m y e) (hex : DocBefore m e x) : parentOf m e = some y ∧ ¬ Breaks m e := by
  obtain ⟨s, hs, hsx, hu⟩ := between_parent_child (parentOf_root m) hxy hye hex
  obtain ⟨rfl, hb⟩ := hclear s e hs hsx hu he
  exact ⟨hs, hb⟩

theorem skips_iff (he : e ≠ root) :
    skips m y x e = true ↔ parentOf m e = some y ∧ sibling e x := by
  simp only [skips, parentOf, if_neg he, Bool.and_eq_true, beq_iff_eq, decide_eq_true_eq]

theorem scan_splits (hm : Rooted m) (hxy : parentOf m x = some y)
    {before post rest : List Identity} (hbefore : ∀ e ∈ before, e = y ∨ DocBefore m e y)
    (hafter : ∀ e ∈ post ++ rest, DocBefore m y e) (hsort : (post ++ rest).Pairwise (DocBefore m))
    (hnew : x ∉ post ++ rest) (hmem : ∀ e ∈ post ++ rest, e ∈ m)
    (hbetween : ∀ e ∈ post ++ rest, DocBefore m e x → parentOf m e = some y ∧ ¬ Breaks m e)
    (hbreak : ∀ b ∈ rest.head?, Breaks m b) :
    Splits m x (before ++ post.takeWhile (skips m y x))
      (post.dropWhile (skips m y x) ++ rest) := by
  have hxm : x ∈ m := mem_of_parentOf hxy
  obtain ⟨hxr, relx, hlx, hp⟩ := parentOf_eq_some.mp hxy
  obtain ⟨p, hpath⟩ := hm.climbs y (hp ▸ hm.parent_mem hlx)
  have hpost : post.Pairwise (DocBefore m) := (List.pairwise_append.mp hsort).1
  obtain ⟨htake, hdrop⟩ := skip_siblings (parentOf_root m) hpath hxy hpost
    (fun e he => hm.climbs e (hmem e (List.mem_append_left _ he)))
    (fun h => hnew (List.mem_append_left _ h))
    (fun e he hex => (hbetween e (List.mem_append_left _ he) hex).1) (skips m y x)
    (fun e he => skips_iff fun hr =>
      not_before_root (hr ▸ hafter e (List.mem_append_left _ he)))
  have hrest : ∀ e ∈ rest, DocBefore m x e := by
    cases rest with
    | nil => simp
    | cons b rest =>
      have hb : b ∈ post ++ b :: rest := by simp
      have hxb : DocBefore m x b := before_of_not hm hxm (hmem b hb)
        (fun h => hnew (h ▸ hb)) fun hbx => (hbetween b hb hbx).2 (hbreak b rfl)
      intro e he
      rcases List.mem_cons.mp he with rfl | he
      · exact hxb
      · have hs := (List.pairwise_append.mp hsort).2.1
        exact before_trans (parentOf_root m) hxb ((List.pairwise_cons.mp hs).1 e he)
  refine ⟨fun e he => ?_, fun e he => ?_⟩
  · rcases List.mem_append.mp he with he | he
    · exact splits_before hm hxy hbefore e he
    · exact htake e he
  · rcases List.mem_append.mp he with he | he
    · exact hdrop e he
    · exact hrest e he

end Order

section Canonical

variable {f : SharFile} {x y : Identity} {A B : List (List Identity)} {pre post u v : List Identity}

theorem rest_breaks (hf : Canonical f) {row : List Identity}
    (hrows : f.projection = A ++ row :: B) : ∀ b ∈ B.flatten.head?, Breaks f.characters b := by
  have hlay := hf.layout
  rw [hrows, layout_middle] at hlay
  have hB : ∀ r ∈ B, BreakRow (Breaks f.characters) r := by
    rcases hlay with ⟨_, _, h⟩ | ⟨_, _, h⟩ <;> exact h
  cases B with
  | nil => simp
  | cons r B =>
    obtain ⟨b, w, rfl, hb, _⟩ := hB r (by simp)
    simpa using hb

theorem ordered_at (hf : Canonical f) (hrows : f.projection = A ++ (u ++ y :: v) :: B) :
    (∀ e ∈ A.flatten ++ (u ++ [y]), e = y ∨ DocBefore f.characters e y) ∧
    (∀ e ∈ v ++ B.flatten, DocBefore f.characters y e) ∧
    (v ++ B.flatten).Pairwise (DocBefore f.characters) := by
  have hord := hf.ordered
  rw [hrows, flatten_middle, List.cons_append, List.pairwise_append] at hord
  obtain ⟨_, hright, hcross⟩ := hord
  obtain ⟨hafter, hsort⟩ := List.pairwise_cons.mp hright
  refine ⟨fun e he => ?_, hafter, hsort⟩
  rw [← List.append_assoc, List.mem_append, List.mem_singleton] at he
  exact he.symm.imp id fun he => hcross e he y (by simp)

theorem row_live (hf : Canonical f) (hrows : f.projection = A ++ (pre ++ post) :: B) :
    ∀ e ∈ post ++ B.flatten, Live f.characters e := by
  intro e he
  rw [hf.live, hrows, flatten_middle]
  exact List.mem_append_right _ he

/-- The slot of a tombstone splits the document where the tombstone itself would stand. -/
theorem slot_splits (hf : Canonical f) (hs : Slot f x A pre post B) (ht : Tomb f.characters x)
    (hc : ClearClimb f.characters x) :
    Splits f.characters x (A.flatten ++ pre) (post ++ B.flatten) := by
  have hnot : ∀ {x : Identity} {l : List Identity}, Tomb f.characters x →
      (∀ e ∈ l, Live f.characters e) → x ∉ l := fun ht hl hin => ht.not_live (hl _ hin)
  induction hs with
  | root hx _ =>
    cases hc with
    | live hx' _ hne _ =>
      rw [hx, Option.some.injEq] at hx'
      exact absurd hx'.symm hne
    | tomb hx' ht' _ _ =>
      rw [hx, Option.some.injEq] at hx'
      exact absurd hf.rooted.root_live (hx' ▸ ht').not_live
  | @live x a A u v B hx _ hlive hrows =>
    have hrun : ClearRun f.characters a x := by
      cases hc with
      | live hx' _ _ h =>
        rw [hx, Option.some.injEq] at hx'
        exact hx' ▸ h
      | tomb hx' ht' _ _ =>
        rw [hx, Option.some.injEq] at hx'
        exact absurd hlive (hx' ▸ ht').not_live
    obtain ⟨hbefore, hafter, hsort⟩ := ordered_at hf hrows
    have hcut : f.projection = A ++ (u ++ [a] ++ v) :: B := by simpa using hrows
    have hl := row_live hf hcut
    have h := scan_splits hf.rooted hx hbefore hafter hsort (hnot ht hl) (fun e he => (hl e he).mem)
      (fun e he => clear_between hx hrun (hl e he) (hafter e he)) (rest_breaks hf hrows)
    simpa using h
  | @tomb x y A pre post B hx hty hs ih =>
    have hboth : ClearRun f.characters y x ∧ ClearClimb f.characters y := by
      cases hc with
      | live hx' hl _ _ =>
        rw [hx, Option.some.injEq] at hx'
        exact absurd (hx' ▸ hl) hty.not_live
      | tomb hx' _ h hc =>
        rw [hx, Option.some.injEq] at hx'
        exact hx' ▸ ⟨h, hc⟩
    obtain ⟨hbefore, hafter⟩ := ih hty hboth.2
    have hl := row_live hf hs.rows
    have hsort := hf.ordered
    rw [hs.rows, flatten_middle, List.pairwise_append] at hsort
    have h := scan_splits hf.rooted hx (fun e he => Or.inr (hbefore e he)) hafter hsort.2.1
      (hnot ht hl) (fun e he => (hl e he).mem)
      (fun e he => clear_between hx hboth.1 (hl e he) (hafter e he)) (rest_breaks hf hs.rows)
    rwa [List.append_assoc] at h

theorem place_splits (hf : Canonical f) (hplace : Place f y A pre post B)
    (hc : Tomb f.characters y → ClearClimb f.characters y) :
    (∀ e ∈ A.flatten ++ pre, e = y ∨ DocBefore f.characters e y) ∧
    (∀ e ∈ post ++ B.flatten, DocBefore f.characters y e) := by
  cases hplace with
  | @root line B hrows =>
    obtain ⟨u, C, he⟩ := hf.headed
    have hline : line = root :: u := by
      rw [hrows] at he
      exact (List.cons.inj he).1
    subst hline
    obtain ⟨_, h', _⟩ := ordered_at (A := []) (u := []) hf hrows
    exact ⟨by simp, by simpa using h'⟩
  | live _ _ hrows =>
    obtain ⟨h, h', _⟩ := ordered_at hf hrows
    exact ⟨h, h'⟩
  | tomb ht hs =>
    obtain ⟨h, h'⟩ := slot_splits hf hs ht (hc ht)
    exact ⟨fun e he => Or.inr (h e he), h'⟩

end Canonical

section Insert

variable {f : SharFile} {c : CRDT} {A B : List (List Identity)} {pre post : List Identity}

theorem path_insert {m : Characters} {x z : Identity} {rel : CrdtRelation} (hm : Rooted m)
    (hz : z ∉ m) (hx : x ∈ m) {p : List Identity}
    (hp : PathTo (parentOf (m.insert z rel)) root x p) : PathTo (parentOf m) root x p := by
  obtain ⟨q, hq⟩ := hm.climbs x hx
  have hext : PathTo (parentOf (m.insert z rel)) root x q :=
    path_extend (fun _ _ => parentOf_insert hz) hq
  rwa [path_unique (parentOf_root _) hp hext]

theorem between_insert {m : Characters} {y z e : Identity} {rel : CrdtRelation} (hm : Rooted m)
    (hz : z ∉ m) (hzr : z ≠ root) (hy : rel.parent = y) (he : e ∈ m) (hye : DocBefore m y e)
    (hez : DocBefore (m.insert z rel) e z) :
    ∃ s, parentOf m s = some y ∧ sibling s z ∧ Under (parentOf m) root s e := by
  subst hy
  have hext : ∀ a b, parentOf m a = some b → parentOf (m.insert z rel) a = some b :=
    fun _ _ => parentOf_insert hz
  obtain ⟨s, hs, hsz, p, q, hp, hq, hpq⟩ := between_parent_child (parentOf_root _)
    (parentOf_insert_self hzr) (before_extend hext hye) hez
  have hne : s ≠ z := fun h => Std.Irrefl.irrefl z (h ▸ hsz)
  rw [parentOf_insert_ne hne] at hs
  exact ⟨s, hs, hsz, p, q, path_insert hm hz (mem_of_parentOf hs) hp, path_insert hm hz he hq, hpq⟩

theorem canonical_insert (hf : Canonical f) (hc : c.identity ∉ f.characters) {p : Projection}
    {before after : List Identity}
    (hshape : Shape (landed f c p)) (hold : f.projection.flatten = before ++ after)
    (hnew : p.flatten = before ++ c.identity :: after)
    (hsplit : Splits (f.characters.insert c.identity c.relation) c.identity before after) :
    Canonical (landed f c p) := by
  refine ⟨hshape, ?_⟩
  change p.flatten.Pairwise (DocBefore (f.characters.insert c.identity c.relation))
  rw [hnew]
  refine insert_document ?_ hsplit.1 hsplit.2
  rw [← hold]
  exact hf.ordered.imp fun hb => before_extend (fun a b => parentOf_insert hc) hb

/-- What `add_crdt` needs to keep the order; `BareRun` since a line break is put right
behind its parent, and a live parent since `lineAbove` is never in order. -/
def Orderly (f : SharFile) (call : Call) : Prop :=
  ∀ c, call.2 = .add c → c.identity ∉ f.characters → c.relation.parent ∈ f.characters →
    if isLineBreak c.relation.value then
      Live f.characters c.relation.parent ∧ BareRun f.characters c.relation.parent c.identity
    else
      ClearRun f.characters c.relation.parent c.identity ∧
        (Tomb f.characters c.relation.parent → ClearClimb f.characters c.relation.parent)

theorem canonical_char (hf : Canonical f) (hc : c.identity ∉ f.characters)
    (hd : c.relation.deleted = false) (hb : isLineBreak c.relation.value = false)
    (hplace : Place f c.relation.parent A pre post B) (hpre : pre ≠ [])
    (hclear : ClearRun f.characters c.relation.parent c.identity)
    (hclimb : Tomb f.characters c.relation.parent → ClearClimb f.characters c.relation.parent) :
    Canonical (landed f c (A ++ (pre ++ post.takeWhile (skips f.characters c.relation.parent
      c.identity) ++ c.identity :: post.dropWhile (skips f.characters c.relation.parent
      c.identity)) :: B)) := by
  have hpar := Place.parent_mem hf.toSound hplace
  have hcr : c.identity ≠ root := fun h => hc (h ▸ hf.rooted.root_mem)
  obtain ⟨hbefore, hafter⟩ := place_splits hf hplace hclimb
  have hlive := row_live hf hplace.rows
  have hsort := hf.ordered
  rw [hplace.rows, flatten_middle, List.pairwise_append] at hsort
  have hne : ∀ {e}, e ∈ f.characters → e ≠ c.identity := fun he h => hc (h ▸ he)
  have hext : ∀ {a b}, DocBefore f.characters a b →
      DocBefore (f.characters.insert c.identity c.relation) a b :=
    before_extend fun a b => parentOf_insert hc
  have hscan := scan_splits (hf.rooted.insert hc hpar) (parentOf_insert_self hcr)
    (fun e he => (hbefore e he).imp id hext) (fun e he => hext (hafter e he))
    (hsort.2.1.imp hext) (fun h => hc (hlive _ h).mem)
    (fun e he => Finmap.mem_insert.mpr (Or.inr (hlive e he).mem))
    (fun e he hex => by
      obtain ⟨s, hs, hsz, hu⟩ := between_insert hf.rooted hc hcr rfl (hlive e he).mem
        (hafter e he) hex
      obtain ⟨rfl, hnb⟩ := hclear s e hs hsz hu (hlive e he)
      have hne := hne (hlive e he).mem
      rw [parentOf_insert_ne hne, breaks_insert_ne hne]
      exact ⟨hs, hnb⟩)
    (fun b hb => by
      have hbm : b ∈ post ++ B.flatten := List.mem_append_right _ (List.mem_of_mem_head? hb)
      rw [breaks_insert_ne (hne (hlive b hbm).mem)]
      exact rest_breaks hf hplace.rows b hb)
  have hskips : ∀ e ∈ post, skips (f.characters.insert c.identity c.relation) c.relation.parent
      c.identity e = skips f.characters c.relation.parent c.identity e :=
    fun e he => skips_landed hf.toSound hplace.rows hc he
  rw [takeWhile_congr hskips, dropWhile_congr hskips] at hscan
  refine canonical_insert hf hc (shape_char hf.toShape hc hpar hd hb (hplace.scan _) ?_)
    ?_ ?_ hscan
  · exact fun h => hpre (List.append_eq_nil_iff.mp h).1
  · rw [hplace.scan (skips f.characters c.relation.parent c.identity), flatten_middle,
      ← List.append_assoc A.flatten]
  · rw [flatten_middle, ← List.append_assoc A.flatten, List.cons_append]

theorem canonical_line (hf : Canonical f) (hc : c.identity ∉ f.characters)
    (hd : c.relation.deleted = false) (hb : isLineBreak c.relation.value = true)
    (hlive : Live f.characters c.relation.parent)
    (hplace : Place f c.relation.parent A pre post B)
    (hbare : BareRun f.characters c.relation.parent c.identity) :
    Canonical (landed f c (A ++ pre :: (c.identity :: post) :: B)) := by
  have hcr : c.identity ≠ root := fun h => hc (h ▸ hf.rooted.root_mem)
  obtain ⟨hbefore, hafter⟩ := place_splits hf hplace fun ht => absurd hlive ht.not_live
  have hrow := row_live hf hplace.rows
  have hm := hf.rooted.insert hc hlive.mem
  have hold : f.projection.flatten = (A.flatten ++ pre) ++ (post ++ B.flatten) := by
    rw [hplace.rows, flatten_middle]
  refine canonical_insert hf hc (shape_line hf.toShape hc hlive.mem hd hb hplace.rows
    (place_headed hf.toShape hlive hplace)) hold (by simp) ⟨?_, fun e he => ?_⟩
  · refine splits_before hm (parentOf_insert_self hcr) fun e he => (hbefore e he).imp id ?_
    exact before_extend fun a b => parentOf_insert hc
  · refine before_of_not hm (Finmap.mem_insert.mpr (Or.inl rfl))
      (Finmap.mem_insert.mpr (Or.inr (hrow e he).mem)) (fun h => hc (h ▸ (hrow e he).mem)) ?_
    intro hex
    obtain ⟨s, hs, hsz, hu⟩ := between_insert hf.rooted hc hcr rfl (hrow e he).mem
      (hafter e he) hex
    exact hbare s e hs hsz hu (hrow e he)

theorem clearClimb_anchor {m : Characters} {x t a : Identity} (hc : ClearClimb m x)
    (ha : Anchor m x t a) : a ≠ root := by
  induction ha with
  | live hx hl =>
    cases hc with
    | live hx' _ hne _ =>
      rw [hx, Option.some.injEq] at hx'
      exact hx' ▸ hne
    | tomb hx' ht _ _ =>
      rw [hx, Option.some.injEq] at hx'
      exact absurd hl (hx' ▸ ht).not_live
  | tomb hx ht _ ih =>
    cases hc with
    | live hx' hl _ _ =>
      rw [hx, Option.some.injEq] at hx'
      exact absurd (hx' ▸ hl) ht.not_live
    | tomb hx' _ _ hc =>
      rw [hx, Option.some.injEq] at hx'
      exact ih (hx' ▸ hc)

end Insert

theorem canonical_added {f f' : SharFile} {c : CRDT} {o : Outcome} (lineNum : ℕ)
    (hf : Canonical f) (hd : c.relation.deleted = false) (ho : Orderly f (lineNum, .add c))
    (ha : Added f c o f') : Canonical f' := by
  cases ha with
  | orphan _ => exact hf
  | duplicate _ _ => exact hf
  | unplaced _ _ _ _ _ => exact hf
  | char hc hb hplace hpre =>
    have hpar := Place.parent_mem hf.toSound hplace
    have h := ho c rfl hc hpar
    rw [hb, if_neg (by simp)] at h
    refine canonical_char hf hc hd hb hplace ?_ h.1 h.2
    rcases live_or_tomb hpar with hl | ht
    · exact place_headed hf.toShape hl hplace
    · obtain ⟨t, a, hanchor, hin⟩ := slot_anchor hf.toShape (hplace.slot hf.rooted ht)
      exact List.ne_nil_of_mem (hin (Or.inl (clearClimb_anchor (h.2 ht) hanchor)))
  | dropped _ _ _ hrows =>
    obtain ⟨u, B, he⟩ := hf.headed
    rw [hrows] at he
    exact absurd he (by simp)
  | line hc hb hl hplace =>
    have h := ho c rfl hc hl.mem
    rw [hb, if_pos rfl] at h
    exact canonical_line hf hc hd hb hl hplace h.2
  | lineAbove hc hb ht _ =>
    have h := ho c rfl hc ht.mem
    rw [hb, if_pos rfl] at h
    exact absurd h.1 ht.not_live

theorem canonical_removed {f f' : SharFile} {x : Identity} {o : Outcome} (hf : Canonical f)
    (hx : x ≠ root) (hr : Removed f x o f') : Canonical f' := by
  refine ⟨shape_removed hf.toShape hx hr, ?_⟩
  have hmark : ∀ {rel p}, f.characters.lookup x = some rel →
      p.flatten.Sublist f.projection.flatten →
      (marked f x rel p).projection.flatten.Pairwise (DocBefore (marked f x rel p).characters) := by
    intro rel p hl hsub
    change p.flatten.Pairwise (Before (parentOf (mark f.characters x rel)) root sibling)
    rw [parentOf_mark hl]
    exact hf.ordered.sublist hsub
  cases hr with
  | unknown _ => exact hf.ordered
  | again _ => exact hf.ordered
  | unplaced hl _ _ => exact hmark hl (List.Sublist.refl _)
  | char hl _ _ hrows =>
    apply hmark hl
    rw [hrows]
    exact erase_sublist _ _ _ _ _
  | line hl _ _ hrows _ =>
    apply hmark hl
    rw [hrows]
    exact merge_sublist _ _ _ _ _

theorem canonical_step {f f' : SharFile} {call : Call} (hf : Canonical f) (hi : Issued f call)
    (ho : Orderly f call) (hs : Step f call f') : Canonical f' := by
  obtain ⟨lineNum, op⟩ := call
  obtain ⟨o, he⟩ := hs
  cases op with
  | add c =>
    obtain ⟨o', g, he', hg⟩ := add_cases hf.toSound c lineNum
    rw [FileOp.apply, he', Option.some.injEq, Prod.mk.injEq] at he
    exact he.2 ▸ canonical_added lineNum hf hi ho hg
  | remove x =>
    rcases remove_cases hf.toSound hi lineNum with ⟨o', g, he', hg, _⟩ | ⟨he', _⟩
    · rw [FileOp.apply, he', Option.some.injEq, Prod.mk.injEq] at he
      exact he.2 ▸ canonical_removed hf hi hg
    · rw [FileOp.apply, he'] at he
      exact absurd he (by simp)

theorem newest_bare {m : Characters} {y z : Identity} (hnew : ∀ x ∈ m, x.1 < z.1) :
    BareRun m y z := by
  intro s e hs hsz
  have hlt := hnew s (mem_of_parentOf hs)
  unfold sibling at hsz
  omega

theorem newest_clear {m : Characters} {y z : Identity} (hnew : ∀ x ∈ m, x.1 < z.1) :
    ClearRun m y z := fun s e hs hsz hu he => absurd he (newest_bare hnew s e hs hsz hu)

/-- A character with a larger id than all others is in order under every live parent. -/
theorem newest_orderly {f : SharFile} {c : CRDT} (lineNum : ℕ)
    (hnew : ∀ x ∈ f.characters, x.1 < c.id) (hl : Live f.characters c.relation.parent) :
    Orderly f (lineNum, .add c) := by
  intro c' hc' _ _
  cases hc'
  split
  · exact ⟨hl, newest_bare hnew⟩
  · exact ⟨newest_clear hnew, fun ht => absurd hl ht.not_live⟩

theorem emptyFile_canonical (filePath : PathBuf) : Canonical (emptyFile filePath) :=
  ⟨emptyFile_shape filePath, by simp [emptyFile]⟩

structure Genesis (f : SharFile) (counter : ℕ) : Prop extends Canonical f where
  tombless : ∀ x, ¬ Tomb f.characters x
  below : ∀ x ∈ f.characters, x.1 ≤ counter

theorem new_genesis {filePath : PathBuf} {contents : List Char} {counter n : ℕ} {f : SharFile}
    (he : SharFile.new filePath (.ok contents) counter = some (.ok (f, n))) : Genesis f n := by
  refine new_invariant Genesis (fun _ _ h => h.toSound) ?_ ⟨emptyFile_canonical filePath,
    emptyFile_tombless filePath, fun x hx => ?_⟩ he
  · intro f n ch prevId o g hf ha
    refine ⟨?_, tombless_added hf.tombless rfl ha, ?_⟩
    · by_cases hp : ((prevId, 0) : Identity) ∈ f.characters
      · have hl : Live f.characters (prevId, 0) :=
          (live_or_tomb hp).resolve_right (hf.tombless _)
        have ho : Orderly f (0, .add ⟨n + 1, 0, .new ch prevId 0⟩) :=
          newest_orderly 0 (fun x hx => Nat.lt_succ_of_le (hf.below x hx)) hl
        exact canonical_added 0 hf.toCanonical rfl ho ha
      · exact canonical_added 0 hf.toCanonical rfl (fun c hc _ hpar => by
          cases hc
          exact absurd hpar hp) ha
    · intro x hx
      rcases added_characters ha with h | ⟨_, h⟩
      · rw [h] at hx
        exact Nat.le_succ_of_le (hf.below x hx)
      · rw [h, Finmap.mem_insert] at hx
        rcases hx with rfl | hx
        · exact le_rfl
        · exact Nat.le_succ_of_le (hf.below x hx)
  · rcases Finmap.mem_insert.mp hx with rfl | hx
    · exact Nat.zero_le _
    · exact absurd hx Finmap.notMem_empty

theorem loaded_canonical {f : SharFile} (h : Loaded f) : Canonical f := by
  obtain ⟨filePath, contents, counter, n, he⟩ := h
  exact (new_genesis he).toCanonical

end DocumentOrder
