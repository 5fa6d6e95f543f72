import Shario.DocumentOrder

/-! Strong convergence: two causal orders of the same operations give the same file,
as long as every call of both finds the siblings before its place in order. -/
namespace Convergence

open CrdtTypes FileTree TreeOrder CharacterTree FilePlacement GuardedRuns FileSafety FileShape
  DocumentOrder

def addIdentity : FileOp → Option Identity
  | .add c => some c.identity
  | .remove _ => none

/-- New operations on a file; an id is larger than the id of its parent. -/
structure Operations (f₀ : SharFile) (ops : List FileOp) : Prop where
  fresh : ∀ c, .add c ∈ ops → c.identity ∉ f₀.characters
  distinct : (ops.filterMap addIdentity).Nodup
  newer : ∀ c, .add c ∈ ops → c.relation.parentId < c.id

/-- Every add comes after its parent, every remove after its target. -/
def Causal : (known : Identity → Prop) → List FileOp → Prop
  | _, [] => True
  | known, .add c :: ops => known c.relation.parent ∧ Causal (fun x => known x ∨ x = c.identity) ops
  | known, .remove x :: ops => known x ∧ Causal known ops

def alive (rel : CrdtRelation) : CrdtRelation := { rel with deleted := false }

def Carries (m : Characters) (x : Identity) (s : CrdtRelation) : Prop :=
  ∃ rel, m.lookup x = some rel ∧ alive rel = s

theorem carries_insert {m : Characters} {x z : Identity} {rel s : CrdtRelation} (hz : z ∉ m) :
    Carries (m.insert z rel) x s ↔ Carries m x s ∨ z = x ∧ alive rel = s := by
  by_cases hx : x = z
  · subst hx
    simp [Carries, Finmap.lookup_eq_none.mpr hz]
  · simp [Carries, Finmap.lookup_insert_of_ne _ hx, Ne.symm hx]

theorem carries_mark {m : Characters} {x z : Identity} {rel s : CrdtRelation}
    (hz : m.lookup z = some rel) : Carries (mark m z rel) x s ↔ Carries m x s := by
  by_cases hx : x = z
  · subst hx
    simp [Carries, mark, hz, alive]
  · simp [Carries, mark, Finmap.lookup_insert_of_ne _ hx]

theorem tomb_mark {m : Characters} {x z : Identity} {rel : CrdtRelation} :
    Tomb (mark m z rel) x ↔ Tomb m x ∨ x = z := by
  by_cases hx : x = z
  · subst hx
    simp [Tomb, mark]
  · simp [Tomb, mark, Finmap.lookup_insert_of_ne _ hx, hx]

theorem characters_ext {m n : Characters} (hc : ∀ x s, Carries m x s ↔ Carries n x s)
    (ht : ∀ x, Tomb m x ↔ Tomb n x) : m = n := by
  have half : ∀ {m n : Characters}, (∀ x s, Carries m x s ↔ Carries n x s) →
      (∀ x, Tomb m x ↔ Tomb n x) → ∀ x rel, m.lookup x = some rel → n.lookup x = some rel := by
    intro m n hc ht x rel hl
    obtain ⟨rel', hl', he⟩ := (hc x (alive rel)).mp ⟨rel, hl, rfl⟩
    have hd : rel'.deleted = rel.deleted := by
      rw [Bool.eq_iff_iff, ← tomb_iff hl', ← tomb_iff hl]
      exact (ht x).symm
    obtain ⟨v, i, p, d⟩ := rel
    obtain ⟨v', i', p', d'⟩ := rel'
    simp only [alive, CrdtRelation.mk.injEq, and_true] at he
    obtain ⟨rfl, rfl, rfl⟩ := he
    simp only at hd
    exact hd ▸ hl'
  refine Finmap.ext_lookup fun x => ?_
  cases hm : m.lookup x with
  | some rel => exact (half hc ht x rel hm).symm
  | none =>
    cases hn : n.lookup x with
    | none => rfl
    | some rel =>
      have h := half (fun x s => (hc x s).symm) (fun x => (ht x).symm) x rel hn
      rw [hm] at h
      exact h

theorem anchor_live {m : Characters} {x t a : Identity} (h : Anchor m x t a) : Live m a := by
  induction h with
  | live _ hl => exact hl
  | tomb _ _ _ ih => exact ih

theorem known_parent_lands {f f' : SharFile} {c : CRDT} {o : Outcome} (hf : Shape f)
    (hp : c.relation.parent ∈ f.characters) (hc : c.identity ∉ f.characters)
    (ha : Added f c o f') : f'.characters = f.characters.insert c.identity c.relation := by
  cases ha with
  | orphan h => exact absurd hp h
  | duplicate _ h => exact absurd h hc
  | unplaced _ _ hanchor _ hnot =>
    rcases hanchor with ⟨hl, rfl⟩ | ⟨_, ha⟩
    · exact absurd ((hf.live _).mp hl) hnot
    · exact absurd ((hf.live _).mp (anchor_live ha)) hnot
  | char _ _ _ _ => rfl
  | dropped _ _ _ _ => rfl
  | line _ _ _ _ => rfl
  | lineAbove _ _ _ _ => rfl

theorem known_target_falls {f f' : SharFile} {x : Identity} {o : Outcome}
    (hx : x ∈ f.characters) (hr : Removed f x o f') :
    f'.characters = f.characters ∧ Tomb f.characters x ∨
      ∃ rel, f.characters.lookup x = some rel ∧ f'.characters = mark f.characters x rel := by
  cases hr with
  | unknown h => exact absurd hx h
  | again ht => exact Or.inl ⟨rfl, ht⟩
  | unplaced hl _ _ => exact Or.inr ⟨_, hl, rfl⟩
  | char hl _ _ _ => exact Or.inr ⟨_, hl, rfl⟩
  | line hl _ _ _ _ => exact Or.inr ⟨_, hl, rfl⟩

theorem add_step_characters {f f' : SharFile} {c : CRDT} {lineNum : ℕ} (hf : Shape f)
    (hp : c.relation.parent ∈ f.characters) (hc : c.identity ∉ f.characters)
    (hs : Step f (lineNum, .add c) f') :
    f'.characters = f.characters.insert c.identity c.relation := by
  obtain ⟨o, he⟩ := hs
  obtain ⟨o', g, he', ha⟩ := add_cases hf.toSound c lineNum
  rw [FileOp.apply, he', Option.some.injEq, Prod.mk.injEq] at he
  exact he.2 ▸ known_parent_lands hf hp hc ha

theorem remove_step_characters {f f' : SharFile} {x : Identity} {lineNum : ℕ} (hf : Shape f)
    (hr : x ≠ root) (hx : x ∈ f.characters) (hs : Step f (lineNum, .remove x) f') :
    f'.characters = f.characters ∧ Tomb f.characters x ∨
      ∃ rel, f.characters.lookup x = some rel ∧ f'.characters = mark f.characters x rel := by
  obtain ⟨o, he⟩ := hs
  rcases remove_cases hf.toSound hr lineNum with ⟨o', g, he', hr, _⟩ | ⟨he', _⟩
  · rw [FileOp.apply, he', Option.some.injEq, Prod.mk.injEq] at he
    exact he.2 ▸ known_target_falls hx hr
  · rw [FileOp.apply, he'] at he
    exact absurd he (by simp)

/-- `m` is `m₀` with the operations written into it, in whatever order. -/
structure Written (m₀ : Characters) (ops : List FileOp) (m : Characters) : Prop where
  carries : ∀ x s, Carries m x s ↔ Carries m₀ x s ∨
    ∃ c, FileOp.add c ∈ ops ∧ c.identity = x ∧ alive c.relation = s
  tomb : ∀ x, Tomb m x ↔ Tomb m₀ x ∨ FileOp.remove x ∈ ops

theorem written_nil (m : Characters) : Written m [] m := ⟨by simp, by simp⟩

theorem written_add {m₀ m : Characters} {c : CRDT} {ops : List FileOp} (hc : c.identity ∉ m₀)
    (hd : c.relation.deleted = false) (h : Written (m₀.insert c.identity c.relation) ops m) :
    Written m₀ (.add c :: ops) m := by
  refine ⟨fun x s => ?_, fun x => ?_⟩
  · rw [h.carries, carries_insert hc]
    simp only [List.mem_cons, FileOp.add.injEq]
    constructor
    · rintro ((hx | ⟨rfl, rfl⟩) | ⟨d, hd, hx⟩)
      · exact Or.inl hx
      · exact Or.inr ⟨c, Or.inl rfl, rfl, rfl⟩
      · exact Or.inr ⟨d, Or.inr hd, hx⟩
    · rintro (hx | ⟨d, rfl | hd, hx⟩)
      · exact Or.inl (Or.inl hx)
      · exact Or.inl (Or.inr hx)
      · exact Or.inr ⟨d, hd, hx⟩
  · rw [h.tomb]
    simp only [List.mem_cons, reduceCtorEq, false_or]
    by_cases hx : x = c.identity
    · subst hx
      have hnew : ¬ Tomb (m₀.insert c.identity c.relation) c.identity := by
        rw [tomb_iff (Finmap.lookup_insert _), hd]
        simp
      have hold : ¬ Tomb m₀ c.identity := fun h => hc h.mem
      simp [hnew, hold]
    · rw [tomb_insert_ne hx]

theorem written_mark {m₀ m : Characters} {z : Identity} {rel : CrdtRelation} {ops : List FileOp}
    (hz : m₀.lookup z = some rel) (h : Written (mark m₀ z rel) ops m) :
    Written m₀ (.remove z :: ops) m := by
  refine ⟨fun x s => ?_, fun x => ?_⟩
  · rw [h.carries, carries_mark hz]
    simp
  · rw [h.tomb, tomb_mark]
    simp [or_assoc]

theorem written_again {m₀ m : Characters} {z : Identity} {ops : List FileOp} (hz : Tomb m₀ z)
    (h : Written m₀ ops m) : Written m₀ (.remove z :: ops) m := by
  refine ⟨fun x s => ?_, fun x => ?_⟩
  · rw [h.carries]
    simp
  · rw [h.tomb]
    simp only [List.mem_cons, FileOp.remove.injEq]
    constructor
    · exact fun h => h.imp id Or.inr
    · rintro (h | rfl | h)
      · exact Or.inl h
      · exact Or.inl hz
      · exact Or.inr h

/-- What a causal run leaves in the character map does not depend on its order. -/
theorem run_written : ∀ {calls : List Call} {f₀ f : SharFile}, Canonical f₀ →
    (∀ c, FileOp.add c ∈ calls.map Prod.snd → c.identity ∉ f₀.characters) →
    ((calls.map Prod.snd).filterMap addIdentity).Nodup →
    Causal (· ∈ f₀.characters) (calls.map Prod.snd) →
    Run Step (fun f call => Issued f call ∧ Orderly f call) f₀ calls f →
    Canonical f ∧ Written f₀.characters (calls.map Prod.snd) f.characters := by
  intro calls
  induction calls with
  | nil =>
    intro f₀ f hf _ _ _ hrun
    cases hrun
    exact ⟨hf, written_nil _⟩
  | cons call calls ih =>
    intro f₀ f hf hfresh hnd hcausal hrun
    cases hrun with
    | @cons _ f₁ _ _ _ hg hs hrun =>
      have hf₁ := canonical_step hf hg.1 hg.2 hs
      obtain ⟨lineNum, op⟩ := call
      cases op with
      | add c =>
        obtain ⟨hp, hcausal⟩ := hcausal
        have hc : c.identity ∉ f₀.characters := hfresh c (by simp)
        have hchars := add_step_characters hf.toShape hp hc hs
        have hknown : (fun x => x ∈ f₀.characters ∨ x = c.identity) = (· ∈ f₁.characters) := by
          funext x
          rw [hchars, Finmap.mem_insert, or_comm]
        rw [hknown] at hcausal
        simp only [List.map_cons, List.filterMap_cons, addIdentity, List.nodup_cons] at hnd
        obtain ⟨hcan, hw⟩ := ih hf₁ (fun d hd hin => by
          rw [hchars, Finmap.mem_insert] at hin
          rcases hin with he | hin
          · exact hnd.1 (List.mem_filterMap.mpr ⟨.add d, hd, by rw [addIdentity, he]⟩)
          · exact hfresh d (List.mem_cons_of_mem _ hd) hin) hnd.2 hcausal hrun
        exact ⟨hcan, written_add hc hg.1 (hchars ▸ hw)⟩
      | remove z =>
        obtain ⟨hz, hcausal⟩ := hcausal
        have hchars := remove_step_characters hf.toShape hg.1 hz hs
        have hknown : ∀ x, x ∈ f₁.characters ↔ x ∈ f₀.characters := by
          intro x
          rcases hchars with ⟨h, _⟩ | ⟨rel, hl, h⟩
          · rw [h]
          · rw [h, mem_mark hl]
        have hset : (· ∈ f₀.characters) = (· ∈ f₁.characters) := funext fun x => propext (hknown x).symm
        obtain ⟨hcan, hw⟩ := ih hf₁ (fun d hd hin =>
          hfresh d (List.mem_cons_of_mem _ hd) ((hknown _).mp hin)) hnd (hset ▸ hcausal) hrun
        refine ⟨hcan, ?_⟩
        rcases hchars with ⟨h, ht⟩ | ⟨rel, hl, h⟩
        · exact written_again ht (h ▸ hw)
        · exact written_mark hl (h ▸ hw)

theorem written_perm {m₀ m n : Characters} {ops ops' : List FileOp} (h : Written m₀ ops m)
    (k : Written m₀ ops' n) (hperm : ops.Perm ops') : m = n := by
  refine characters_ext (fun x s => ?_) fun x => ?_
  · rw [h.carries, k.carries]
    simp only [hperm.mem_iff]
  · rw [h.tomb, k.tomb, hperm.mem_iff]

/-- Canonical files are determined by their characters. -/
theorem canonical_unique {f g : SharFile} (hf : Canonical f) (hg : Canonical g)
    (h : f.characters = g.characters) : f.Same g := by
  refine ⟨h, RowLayout.layout_unique hf.layout (h ▸ hg.layout) ?_⟩
  refine document_unique (parentOf_root f.characters) hf.ordered (h ▸ hg.ordered) fun x => ?_
  rw [← hf.live, ← hg.live, h]

theorem convergence {f₀ f g : SharFile} {calls calls' : List Call} (hl : Loaded f₀)
    (hops : Operations f₀ (calls.map Prod.snd))
    (hperm : (calls.map Prod.snd).Perm (calls'.map Prod.snd))
    (hcausal : Causal (· ∈ f₀.characters) (calls.map Prod.snd))
    (hcausal' : Causal (· ∈ f₀.characters) (calls'.map Prod.snd))
    (hrun : Run Step (fun f call => Issued f call ∧ Orderly f call) f₀ calls f)
    (hrun' : Run Step (fun f call => Issued f call ∧ Orderly f call) f₀ calls' g) : f.Same g := by
  have h₀ := loaded_canonical hl
  obtain ⟨hf, hw⟩ := run_written h₀ hops.fresh hops.distinct hcausal hrun
  obtain ⟨hg, hw'⟩ := run_written h₀ (fun c hc => hops.fresh c (hperm.mem_iff.mpr hc))
    ((hperm.filterMap addIdentity).nodup_iff.mp hops.distinct) hcausal' hrun'
  exact canonical_unique hf hg (written_perm hw hw' hperm)

/-- Two children of the root, the first one deleted at the end or in between. -/
def removeLast : List Call :=
  [(0, .add ⟨1, 1, .new 'a' 0 0⟩), (0, .add ⟨2, 1, .new 'b' 0 0⟩), (7, .remove (1, 1))]

def removeBetween : List Call :=
  [(0, .add ⟨1, 1, .new 'a' 0 0⟩), (3, .remove (1, 1)), (0, .add ⟨2, 1, .new 'b' 0 0⟩)]

theorem convergence_of_siblings : ∃ f g, Run Step Issued (emptyFile []) removeLast f ∧
    Run Step Issued (emptyFile []) removeBetween g ∧ f.Same g := by
  have hroot : root ∈ (emptyFile []).characters := (emptyFile_sound []).rooted.root_mem
  have hnewest : ∀ {f : SharFile} {c : CRDT} (n : ℕ), (∀ x ∈ f.characters.keys, x.1 < c.id) →
      Live f.characters c.relation.parent → Orderly f (n, .add c) :=
    fun n h hl => newest_orderly n (fun x hx => h x (Finmap.mem_keys.mpr hx)) hl
  have hrun : ∃ f, Run Step (fun f call => Issued f call ∧ Orderly f call) (emptyFile [])
      removeLast f :=
    ⟨_, .cons ⟨rfl, hnewest 0 (by decide) ⟨_, rfl, rfl⟩⟩ ⟨_, rfl⟩
      (.cons ⟨rfl, hnewest 0 (by decide) ⟨_, rfl, rfl⟩⟩ ⟨_, rfl⟩
      (.cons ⟨by simp [Issued, root], fun c h => absurd h (by simp)⟩ ⟨_, rfl⟩ (.nil _)))⟩
  have hrun' : ∃ f, Run Step (fun f call => Issued f call ∧ Orderly f call) (emptyFile [])
      removeBetween f :=
    ⟨_, .cons ⟨rfl, hnewest 0 (by decide) ⟨_, rfl, rfl⟩⟩ ⟨_, rfl⟩
      (.cons ⟨by simp [Issued, root], fun c h => absurd h (by simp)⟩ ⟨_, rfl⟩
      (.cons ⟨rfl, hnewest 0 (by decide) ⟨_, rfl, rfl⟩⟩ ⟨_, rfl⟩ (.nil _)))⟩
  have hops : Operations (emptyFile []) (removeLast.map Prod.snd) := by
    refine ⟨fun c hc => ?_, by decide, fun c hc => ?_⟩
    all_goals
      simp only [removeLast, List.map_cons, List.map_nil, List.mem_cons, FileOp.add.injEq,
        reduceCtorEq, List.not_mem_nil, or_false] at hc
      rcases hc with rfl | rfl <;> decide
  obtain ⟨f, hf⟩ := hrun
  obtain ⟨g, hg⟩ := hrun'
  refine ⟨f, g, hf.weaken fun _ _ h => h.1, hg.weaken fun _ _ h => h.1, ?_⟩
  have hcausal : Causal (· ∈ (emptyFile []).characters) (removeLast.map Prod.snd) :=
    ⟨hroot, Or.inl hroot, Or.inl (Or.inr rfl), trivial⟩
  have hcausal' : Causal (· ∈ (emptyFile []).characters) (removeBetween.map Prod.snd) :=
    ⟨hroot, Or.inr rfl, Or.inl hroot, trivial⟩
  exact convergence ⟨[], [], 0, 0, rfl⟩ hops (by decide) hcausal hcausal' hf hg

/-- In the empty file: `s`, its child `c`, and `x`, a later sibling of `s`. -/
def sThenX : List Call :=
  [(0, .add ⟨10, 1, .new 's' 0 0⟩), (0, .add ⟨11, 1, .new 'c' 10 1⟩),
    (0, .add ⟨5, 2, .new 'x' 0 0⟩)]

def xThenS : List Call :=
  [(0, .add ⟨5, 2, .new 'x' 0 0⟩), (0, .add ⟨10, 1, .new 's' 0 0⟩),
    (0, .add ⟨11, 1, .new 'c' 10 1⟩)]

theorem orders_diverge : ¬ ∀ (f₀ f g : SharFile) (calls calls' : List Call), Loaded f₀ →
    Operations f₀ (calls.map Prod.snd) → (calls.map Prod.snd).Perm (calls'.map Prod.snd) →
    Causal (· ∈ f₀.characters) (calls.map Prod.snd) →
    Causal (· ∈ f₀.characters) (calls'.map Prod.snd) →
    Run Step Issued f₀ calls f → Run Step Issued f₀ calls' g → f.Same g := by
  intro h
  have hroot : root ∈ (emptyFile []).characters := (emptyFile_sound []).rooted.root_mem
  have hops : Operations (emptyFile []) (sThenX.map Prod.snd) := by
    refine ⟨fun c hc => ?_, by decide, fun c hc => ?_⟩
    all_goals
      simp only [sThenX, List.map_cons, List.map_nil, List.mem_cons, FileOp.add.injEq,
        List.not_mem_nil, or_false] at hc
      rcases hc with rfl | rfl | rfl <;> decide
  have hrun : ∃ f, Run Step Issued (emptyFile []) sThenX f ∧
      f.projection = [[(0, 0), (10, 1), (5, 2), (11, 1)]] :=
    ⟨_, .cons rfl ⟨_, rfl⟩ (.cons rfl ⟨_, rfl⟩ (.cons rfl ⟨_, rfl⟩ (.nil _))), rfl⟩
  have hrun' : ∃ g, Run Step Issued (emptyFile []) xThenS g ∧
      g.projection = [[(0, 0), (10, 1), (11, 1), (5, 2)]] :=
    ⟨_, .cons rfl ⟨_, rfl⟩ (.cons rfl ⟨_, rfl⟩ (.cons rfl ⟨_, rfl⟩ (.nil _))), rfl⟩
  obtain ⟨f, hf, hp⟩ := hrun
  obtain ⟨g, hg, hq⟩ := hrun'
  have hsame := (h (emptyFile []) f g sThenX xThenS ⟨[], [], 0, 0, rfl⟩ hops (by decide)
    ⟨hroot, Or.inr rfl, Or.inl (Or.inl hroot), trivial⟩
    ⟨hroot, Or.inl hroot, Or.inr rfl, trivial⟩ hf hg).2
  rw [hp, hq] at hsame
  exact absurd hsame (by decide)

end Convergence
