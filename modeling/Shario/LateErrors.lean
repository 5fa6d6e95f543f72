import Shario.FileShape

/-! Failed calls. `add_crdt` fails before it writes; `remove_crdt` has set its mark when it
finds that the character stands in no row. -/
namespace LateErrors

open CrdtTypes RowLayout FileTree FileSearch CharacterTree FilePlacement GuardedRuns FileSafety
  FileShape

/-- If the call returns an error, the file is what it was. -/
def FailsClean (f : SharFile) (call : Call) : Prop :=
  ∀ e f', call.2.apply call.1 f = some (.error e, f') → f'.Same f

/-- A live character that no row holds. -/
def Lost (f : SharFile) (x : Identity) : Prop :=
  Live f.characters x ∧ x ∉ f.projection.flatten

def RemovesLost (f : SharFile) (call : Call) : Prop :=
  ∃ x, call.2 = .remove x ∧ x ≠ root ∧ Lost f x

/-- The calls that put a live character out of the rows: an add into an empty row 0, and the
removal of a line break that something stands in front of, which goes in its stead. -/
def Displaces (f : SharFile) (call : Call) : Prop :=
  match call.2 with
  | .add c => c.identity ∉ f.characters ∧ c.relation.parent = root ∧
      isLineBreak c.relation.value = false ∧ ∃ B, f.projection = [] :: B
  | .remove x => Live f.characters x ∧ Breaks f.characters x ∧
      ∃ y w, y :: w ∈ f.projection ∧ x ∈ w

section Calls

variable {f f' : SharFile} {c : CRDT} {x : Identity} {o : Outcome} {e : Error}

theorem add_fails_clean (h : Added f c (.error e) f') : f' = f := by
  cases h <;> rfl

theorem marked_not_same {rel : CrdtRelation} {p : Projection} (hl : f.characters.lookup x = some rel)
    (hd : rel.deleted = false) : ¬ (marked f x rel p).Same f := by
  rintro ⟨hc, _⟩
  have hx : (mark f.characters x rel).lookup x = some rel := by
    rw [← hl]
    exact congrArg (·.lookup x) hc
  rw [mark, Finmap.lookup_insert, Option.some.injEq] at hx
  rw [← hx] at hd
  exact absurd hd (by simp)

/-- Of the errors of `remove_crdt` only the late one leaves a mark. -/
theorem remove_fails_clean (h : Removed f x (.error e) f') : f'.Same f ↔ ¬ Lost f x := by
  cases h with
  | unknown hx => exact iff_of_true ⟨rfl, rfl⟩ fun hlost => hx hlost.1.mem
  | unplaced hl hd hx =>
    exact iff_of_false (marked_not_same hl hd) (not_not.mpr ⟨⟨_, hl, hd⟩, hx⟩)

theorem lost_fails (hf : Sound f) (hx : x ≠ root) (h : Lost f x) (lineNum : ℕ) :
    ∃ e f', f.removeCrdt lineNum x = some (.error e, f') ∧ Removed f x (.error e) f' := by
  rcases remove_cases hf hx lineNum with ⟨o, f', he, hr, _⟩ | ⟨_, _, _, row, hrow, hin⟩
  · cases hr with
    | unknown hx => exact absurd h.1.mem hx
    | again ht => exact absurd h.1 ht.not_live
    | unplaced hl hd hx => exact ⟨_, _, he, .unplaced hl hd hx⟩
    | char _ _ _ hrows => exact absurd (by rw [hrows]; simp) h.2
    | line _ _ _ hrows hin =>
      refine absurd (List.mem_flatten.mpr ⟨_, ?_, hin⟩) h.2
      simp [hrows]
  · exact absurd (List.mem_flatten.mpr ⟨row, List.mem_of_mem_head? hrow, hin⟩) h.2

theorem remove_root_fails (hf : Sound f) (lineNum : ℕ) :
    f.removeCrdt lineNum root ≠ some (.error e, f') := by
  intro he
  have hb : isLineBreak rootRelation.value = false := rfl
  simp only [SharFile.removeCrdt, hf.rooted.root_entry, hb, find_root, Option.bind_eq_bind,
    Option.bind_some, Bool.false_eq_true, if_false] at he
  rw [if_neg (by decide)] at he
  simp only [Option.bind_eq_some_iff, Option.some.injEq, Prod.mk.injEq, reduceCtorEq, false_and,
    and_false, exists_false] at he

theorem call_fails_clean (hf : Sound f) (call : Call) :
    FailsClean f call ↔ ¬ RemovesLost f call := by
  obtain ⟨lineNum, op⟩ := call
  cases op with
  | add c =>
    refine iff_of_true (fun e f' he => ?_) ?_
    · obtain ⟨o, g, he', ha⟩ := add_cases hf c lineNum
      rw [FileOp.apply, he', Option.some.injEq, Prod.mk.injEq] at he
      obtain ⟨rfl, rfl⟩ := he
      obtain rfl := add_fails_clean ha
      exact ⟨rfl, rfl⟩
    · rintro ⟨x, hx, _⟩
      exact absurd hx (by simp)
  | remove x =>
    by_cases hx : x = root
    · subst hx
      refine iff_of_true (fun e f' he => absurd he (remove_root_fails hf lineNum)) ?_
      rintro ⟨y, hy, hne, _⟩
      exact hne (FileOp.remove.inj hy).symm
    have hiff : RemovesLost f (lineNum, .remove x) ↔ Lost f x := by
      constructor
      · rintro ⟨y, hy, _, hlost⟩
        exact FileOp.remove.inj hy ▸ hlost
      · exact fun hlost => ⟨x, rfl, hx, hlost⟩
    rw [hiff]
    constructor
    · intro hclean hlost
      obtain ⟨e, g, he, hr⟩ := lost_fails hf hx hlost lineNum
      exact (remove_fails_clean hr).mp (hclean e g he) hlost
    · intro hnot e g he
      rcases remove_cases hf hx lineNum with ⟨o, g', he', hr, _⟩ | ⟨he', _⟩
      · rw [FileOp.apply, he', Option.some.injEq, Prod.mk.injEq] at he
        obtain ⟨rfl, rfl⟩ := he
        exact (remove_fails_clean hr).mpr hnot
      · rw [FileOp.apply, he'] at he
        exact absurd he (by simp)

end Calls

section Runs

variable {f f' : SharFile} {c : CRDT} {x : Identity} {o : Outcome} {call : Call}

structure Placed (f : SharFile) : Prop extends Sound f where
  standing : ∀ x, Live f.characters x → x ∈ f.projection.flatten

theorem placed_landed (h : Placed f) {p : Projection} (hs : Sound (landed f c p))
    (hperm : p.flatten.Perm (c.identity :: f.projection.flatten)) : Placed (landed f c p) := by
  refine ⟨hs, fun x hx => hperm.mem_iff.mpr ?_⟩
  rw [List.mem_cons]
  by_cases hc : x = c.identity
  · exact Or.inl hc
  · exact Or.inr (h.standing x ((live_insert_ne hc).mp hx))

theorem placed_added (h : Placed f) (lineNum : ℕ) (hkeep : ¬ Displaces f (lineNum, .add c))
    (ha : Added f c o f') : Placed f' := by
  have hs := sound_added h.toSound ha
  cases ha with
  | orphan _ => exact h
  | duplicate _ _ => exact h
  | unplaced _ _ _ _ _ => exact h
  | char hc hb hplace _ =>
    apply placed_landed h hs
    rw [hplace.scan (skips f.characters c.relation.parent c.identity)]
    exact insert_perm _ _ _ _ _
  | dropped hc hb hroot hrows => exact absurd ⟨hc, hroot, hb, _, hrows⟩ hkeep
  | line hc hb hlive hplace =>
    apply placed_landed h hs
    rw [hplace.rows]
    exact split_perm _ _ _ _ _
  | lineAbove hc hb htomb hslot =>
    apply placed_landed h hs
    rw [hslot.rows]
    exact above_perm _ _ _ _ _

theorem placed_marked (h : Placed f) {rel : CrdtRelation} {p : Projection}
    (hs : Sound (marked f x rel p)) (hperm : f.projection.flatten.Perm (x :: p.flatten)) :
    Placed (marked f x rel p) := by
  refine ⟨hs, fun y hy => ?_⟩
  obtain ⟨hy, hne⟩ := live_mark.mp hy
  exact (List.mem_cons.mp (hperm.mem_iff.mp (h.standing y hy))).resolve_left hne

theorem placed_removed (h : Placed f) (lineNum : ℕ) (hx : x ≠ root)
    (hkeep : ¬ Displaces f (lineNum, .remove x)) (hr : Removed f x o f') : Placed f' := by
  have hs := sound_removed h.toSound hx hr
  cases hr with
  | unknown _ => exact h
  | again _ => exact h
  | unplaced hl hd hnot => exact absurd (h.standing x ⟨_, hl, hd⟩) hnot
  | char hl hd hb hrows =>
    apply placed_marked h hs
    rw [hrows]
    exact insert_perm _ _ _ _ _
  | @line rel A r y w B hl hd hb hrows hin =>
    -- nothing stands in front of the line break
    have hw : x ∉ w := fun hw => hkeep ⟨⟨rel, hl, hd⟩, ⟨rel, hl, hb⟩, y, w, by simp [hrows], hw⟩
    obtain rfl := (List.mem_cons.mp hin).resolve_right hw
    apply placed_marked h hs
    rw [hrows]
    exact split_perm _ _ _ _ _

theorem placed_step (h : Placed f) (hi : Issued f call) (hkeep : ¬ Displaces f call)
    (hs : Step f call f') : Placed f' := by
  obtain ⟨lineNum, op⟩ := call
  obtain ⟨o, he⟩ := hs
  cases op with
  | add c =>
    obtain ⟨o', g, he', ha⟩ := add_cases h.toSound c lineNum
    rw [FileOp.apply, he', Option.some.injEq, Prod.mk.injEq] at he
    exact he.2 ▸ placed_added h lineNum hkeep ha
  | remove x =>
    rcases remove_cases h.toSound hi lineNum with ⟨o', g, he', hr, _⟩ | ⟨he', _⟩
    · rw [FileOp.apply, he', Option.some.injEq, Prod.mk.injEq] at he
      exact he.2 ▸ placed_removed h lineNum hi hkeep hr
    · rw [FileOp.apply, he'] at he
      exact absurd he (by simp)

theorem run_placed {f₀ : SharFile} {calls : List Call} (hl : Loaded f₀)
    (hrun : Run Step (fun f call => Issued f call ∧ ¬ Displaces f call) f₀ calls f) : Placed f := by
  have h₀ := (loaded_shape hl).1
  apply hrun.invariant fun _ _ _ h hg hs => placed_step h hg.1 hg.2 hs
  exact ⟨h₀.toSound, fun x => (h₀.live x).mp⟩

/-- While no call displaces a character, every call that fails changes nothing. -/
theorem run_fails_clean {f₀ : SharFile} {calls : List Call} (hl : Loaded f₀)
    (hrun : Run Step (fun f call => Issued f call ∧ ¬ Displaces f call) f₀ calls f) (call : Call) :
    FailsClean f call := by
  have h := run_placed hl hrun
  apply (call_fails_clean h.toSound call).mpr
  rintro ⟨x, _, _, hlive, hnot⟩
  exact hnot (h.standing x hlive)

theorem fails_clean_iff (hf : Reachable f) (call : Call) :
    FailsClean f call ↔ ¬ RemovesLost f call :=
  call_fails_clean (reachable_sound hf) call

end Runs

/-- The file `a`, emptied; two line breaks under the deleted character, one under the root.
The removal of the first break takes the third out of its row. -/
def thirdBreakLost : List Call :=
  [(0, .remove (1, 0)), (0, .add ⟨2, 1, .new '\n' 1 0⟩), (0, .add ⟨3, 1, .new '\n' 1 0⟩),
    (0, .add ⟨4, 1, .new '\n' 0 0⟩), (0, .remove (2, 1))]

theorem third_break_reachable : ∃ f f', Reachable f ∧
    f.projection = [[(3, 1), (2, 1), (0, 0)], [], []] ∧ Lost f (4, 1) ∧
    f.removeCrdt 0 (4, 1) = some (.error (.generic "anchor not found"), f') ∧ ¬ f'.Same f := by
  have hrun : ∃ f₀ f f', Loaded f₀ ∧ Run Step Issued f₀ thirdBreakLost f ∧
      f.projection = [[(3, 1), (2, 1), (0, 0)], [], []] ∧
      f.characters.lookup (4, 1) = some (.new '\n' 0 0) ∧
      f.removeCrdt 0 (4, 1) = some (.error (.generic "anchor not found"), f') ∧
      f'.characters.lookup (4, 1) = some ⟨'\n', 0, 0, true⟩ :=
    ⟨_, _, _, ⟨[], ['a'], 0, 1, rfl⟩,
      .cons (by simp [Issued, root]) ⟨_, rfl⟩ (.cons rfl ⟨_, rfl⟩ (.cons rfl ⟨_, rfl⟩
        (.cons rfl ⟨_, rfl⟩ (.cons (by simp [Issued, root]) ⟨_, rfl⟩ (.nil _))))),
      rfl, rfl, rfl, rfl⟩
  obtain ⟨f₀, f, f', hl, hrun, hp, hx, he, hx'⟩ := hrun
  refine ⟨f, f', ⟨f₀, _, hl, hrun⟩, hp, ⟨⟨_, hx, rfl⟩, by simp [hp]⟩, he, fun hsame => ?_⟩
  rw [hsame.1, hx] at hx'
  exact absurd hx' (by decide)

theorem late_error_marks : ¬ ∀ f call, Reachable f → FailsClean f call := by
  intro h
  obtain ⟨f, f', hf, _, _, he, hnot⟩ := third_break_reachable
  exact hnot (h f (0, .remove (4, 1)) hf _ f' he)

theorem fails_clean_iff_third : ∃ f, f.projection = [[(3, 1), (2, 1), (0, 0)], [], []] ∧
    (FailsClean f (5, .remove (4, 1)) ↔ ¬ RemovesLost f (5, .remove (4, 1))) := by
  obtain ⟨f, _, hf, hp, _⟩ := third_break_reachable
  exact ⟨f, hp, fails_clean_iff hf _⟩

end LateErrors
