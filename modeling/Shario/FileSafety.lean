import Shario.FilePlacement
import Shario.GuardedRuns

/-! Runs of `add_crdt` and `remove_crdt` on one file, and the one way they can panic. -/
namespace FileSafety

open CrdtTypes FileTree FileSearch CharacterTree FilePlacement GuardedRuns

inductive FileOp where
  | add (crdt : CRDT)
  | remove (x : Identity)
  deriving DecidableEq, Repr

def FileOp.apply : FileOp → (lineNum : ℕ) → SharFile → Option (Outcome × SharFile)
  | .add crdt, lineNum, f => f.addCrdt lineNum crdt
  | .remove x, lineNum, f => f.removeCrdt lineNum x

abbrev Call := ℕ × FileOp

def Step (f : SharFile) (call : Call) (f' : SharFile) : Prop :=
  ∃ o, call.2.apply call.1 f = some (o, f')

/-- What the queue hands to a file: no tombstones, no removal of the root. -/
def Issued (_ : SharFile) (call : Call) : Prop :=
  match call.2 with
  | .add crdt => crdt.relation.deleted = false
  | .remove x => x ≠ root

/-- What `SharFile::new` makes of some content. -/
def Loaded (f : SharFile) : Prop :=
  ∃ filePath contents counter counter',
    SharFile.new filePath (.ok contents) counter = some (.ok (f, counter'))

def Reachable (f : SharFile) : Prop :=
  ∃ f₀ calls, Loaded f₀ ∧ Run Step Issued f₀ calls f

section Sound

variable {f f' : SharFile} {c : CRDT} {x : Identity} {rel : CrdtRelation} {o : Outcome}
  {p : Projection}

theorem sound_landed (hf : Sound f) (hc : c.identity ∉ f.characters)
    (hp : c.relation.parent ∈ f.characters) (hne : p ≠ [])
    (hperm : p.flatten.Perm (c.identity :: f.projection.flatten)) : Sound (landed f c p) where
  nonempty := hne
  known := by
    intro x hx
    apply Finmap.mem_insert.mpr
    rcases List.mem_cons.mp (hperm.mem_iff.mp hx) with h | h
    · exact Or.inl h
    · exact Or.inr (hf.known x h)
  nodup := by
    refine hperm.nodup_iff.mpr (List.nodup_cons.mpr ⟨fun h => hc (hf.known _ h), hf.nodup⟩)
  rooted := hf.rooted.insert hc hp

theorem sound_marked (hf : Sound f) (hx : x ≠ root) (hl : f.characters.lookup x = some rel)
    (hne : p ≠ []) (hsub : p.flatten.Sublist f.projection.flatten) :
    Sound (marked f x rel p) where
  nonempty := hne
  known := fun y hy => (mem_mark hl).mpr (hf.known y (hsub.subset hy))
  nodup := hf.nodup.sublist hsub
  rooted := hf.rooted.mark hl hx

theorem Place.parent_mem {y : Identity} (hf : Sound f) {A B : List (List Identity)}
    {pre post : List Identity} (h : Place f y A pre post B) : y ∈ f.characters := by
  cases h with
  | root _ => exact hf.rooted.root_mem
  | live _ hl _ => exact hl.mem
  | tomb ht _ => exact ht.mem

theorem sound_added (hf : Sound f) (h : Added f c o f') : Sound f' := by
  cases h with
  | orphan _ => exact hf
  | duplicate _ _ => exact hf
  | unplaced _ _ _ _ _ => exact hf
  | char hc hb hplace hpre =>
    apply sound_landed hf hc (Place.parent_mem hf hplace) (by simp)
    rw [hplace.scan (skips f.characters c.relation.parent c.identity)]
    exact RowLayout.insert_perm _ _ _ _ _
  | dropped hc hb hroot hrows =>
    refine ⟨hf.nonempty, fun x hx => Finmap.mem_insert.mpr (Or.inr (hf.known x hx)), hf.nodup,
      hf.rooted.insert hc ?_⟩
    rw [hroot]
    exact hf.rooted.root_mem
  | line hc hb hlive hplace =>
    apply sound_landed hf hc hlive.mem (by simp)
    rw [hplace.rows]
    exact RowLayout.split_perm _ _ _ _ _
  | lineAbove hc hb htomb hslot =>
    apply sound_landed hf hc htomb.mem (by simp)
    rw [hslot.rows]
    exact RowLayout.above_perm _ _ _ _ _

theorem sound_removed (hf : Sound f) (hx : x ≠ root) (h : Removed f x o f') : Sound f' := by
  cases h with
  | unknown _ => exact hf
  | again _ => exact hf
  | unplaced hl _ _ => exact sound_marked hf hx hl hf.nonempty (List.Sublist.refl _)
  | char hl _ _ hrows =>
    apply sound_marked hf hx hl (by simp)
    rw [hrows]
    exact RowLayout.erase_sublist _ _ _ _ _
  | line hl _ _ hrows _ =>
    apply sound_marked hf hx hl (by simp)
    rw [hrows]
    exact RowLayout.merge_sublist _ _ _ _ _

end Sound

theorem added_characters {f f' : SharFile} {c : CRDT} {o : Outcome} (h : Added f c o f') :
    f'.characters = f.characters ∨
      c.identity ∉ f.characters ∧ f'.characters = f.characters.insert c.identity c.relation := by
  cases h with
  | orphan _ => exact Or.inl rfl
  | duplicate _ _ => exact Or.inl rfl
  | unplaced _ _ _ _ _ => exact Or.inl rfl
  | char hc _ _ _ => exact Or.inr ⟨hc, rfl⟩
  | dropped hc _ _ _ => exact Or.inr ⟨hc, rfl⟩
  | line hc _ _ _ => exact Or.inr ⟨hc, rfl⟩
  | lineAbove hc _ _ _ => exact Or.inr ⟨hc, rfl⟩

theorem removed_characters {f f' : SharFile} {x : Identity} {o : Outcome} (h : Removed f x o f') :
    f'.characters = f.characters ∨
      ∃ rel, f.characters.lookup x = some rel ∧ f'.characters = mark f.characters x rel := by
  cases h with
  | unknown _ => exact Or.inl rfl
  | again _ => exact Or.inl rfl
  | unplaced hl _ _ => exact Or.inr ⟨_, hl, rfl⟩
  | char hl _ _ _ => exact Or.inr ⟨_, hl, rfl⟩
  | line hl _ _ _ _ => exact Or.inr ⟨_, hl, rfl⟩

theorem added_path {f f' : SharFile} {c : CRDT} {o : Outcome} (h : Added f c o f') :
    f'.filePath = f.filePath := by
  cases h <;> rfl

theorem removed_path {f f' : SharFile} {x : Identity} {o : Outcome} (h : Removed f x o f') :
    f'.filePath = f.filePath := by
  cases h <;> rfl

theorem add_total {f : SharFile} (hf : Sound f) (c : CRDT) (lineNum : ℕ) :
    ∃ o f', f.addCrdt lineNum c = some (o, f') ∧ Sound f' := by
  obtain ⟨o, f', he, h⟩ := add_cases hf c lineNum
  exact ⟨o, f', he, sound_added hf h⟩

theorem sound_step {f f' : SharFile} {call : Call} (hf : Sound f) (hi : Issued f call)
    (h : Step f call f') : Sound f' := by
  obtain ⟨lineNum, op⟩ := call
  obtain ⟨o, he⟩ := h
  cases op with
  | add c =>
    obtain ⟨o', g, he', hg⟩ := add_total hf c lineNum
    rw [FileOp.apply, he', Option.some.injEq, Prod.mk.injEq] at he
    exact he.2 ▸ hg
  | remove x =>
    rcases remove_cases hf hi lineNum with ⟨o', g, he', hg, _⟩ | ⟨he', _⟩
    · rw [FileOp.apply, he', Option.some.injEq, Prod.mk.injEq] at he
      exact he.2 ▸ sound_removed hf hi hg
    · rw [FileOp.apply, he'] at he
      exact absurd he (by simp)

theorem emptyFile_sound (filePath : PathBuf) : Sound (emptyFile filePath) where
  nonempty := by simp [emptyFile]
  known := by simp [emptyFile]
  nodup := by simp [emptyFile]
  rooted := by
    refine ⟨Finmap.lookup_insert _, fun x hx => ⟨[], ?_⟩⟩
    rcases Finmap.mem_insert.mp hx with rfl | hx
    · exact .root
    · exact absurd hx Finmap.notMem_empty

theorem addChars_invariant (J : SharFile → ℕ → Prop) (hsound : ∀ f n, J f n → Sound f)
    (hstep : ∀ f n ch prevId o g, J f n → Added f ⟨n + 1, 0, .new ch prevId 0⟩ o g → J g (n + 1)) :
    ∀ (contents : List Char) (f f' : SharFile) (line prevId counter n : ℕ), J f counter →
    addChars f line prevId counter contents = some (f', n) → J f' n := by
  intro contents
  induction contents with
  | nil =>
    intro f f' line prevId counter n hf he
    simp only [addChars, Option.some.injEq, Prod.mk.injEq] at he
    exact he.1 ▸ he.2 ▸ hf
  | cons ch contents ih =>
    intro f f' line prevId counter n hf he
    simp only [addChars, Option.bind_eq_bind, Option.bind_eq_some_iff, tick_eq_some] at he
    obtain ⟨id, ⟨_, rfl⟩, ⟨o, g⟩, hg, he⟩ := he
    obtain ⟨o', g', hg', hs⟩ := add_cases (hsound f _ hf) ⟨counter + 1, 0, .new ch prevId 0⟩ line
    rw [hg', Option.some.injEq, Prod.mk.injEq] at hg
    exact ih g f' _ _ _ n (hg.2 ▸ hstep f counter ch prevId o' g' hf hs) he

theorem new_invariant (J : SharFile → ℕ → Prop) (hsound : ∀ f n, J f n → Sound f)
    (hstep : ∀ f n ch prevId o g, J f n → Added f ⟨n + 1, 0, .new ch prevId 0⟩ o g → J g (n + 1))
    {filePath : PathBuf} {contents : List Char} {counter n : ℕ} {f : SharFile}
    (h0 : J (emptyFile filePath) counter)
    (he : SharFile.new filePath (.ok contents) counter = some (.ok (f, n))) : J f n := by
  simp only [SharFile.new, Option.bind_eq_bind, Option.bind_eq_some_iff, Option.some.injEq,
    Except.ok.injEq] at he
  obtain ⟨_, he, rfl⟩ := he
  exact addChars_invariant J hsound hstep _ _ _ _ _ _ _ h0 he

theorem loaded_sound {f : SharFile} (h : Loaded f) : Sound f := by
  obtain ⟨filePath, contents, counter, n, he⟩ := h
  exact new_invariant (fun f _ => Sound f) (fun _ _ h => h) (fun _ _ _ _ _ _ h ha => sound_added h ha)
    (emptyFile_sound filePath) he

theorem reachable_sound {f : SharFile} (h : Reachable f) : Sound f := by
  obtain ⟨f₀, calls, hl, hrun⟩ := h
  exact hrun.invariant (fun _ _ _ hf hi hs => sound_step hf hi hs) (loaded_sound hl)

def RemovesFirstBreak (f : SharFile) (call : Call) : Prop :=
  ∃ x, call.2 = .remove x ∧ BreakInFirstRow f x

theorem call_safe_iff {f : SharFile} (hf : Reachable f) (call : Call) (hi : Issued f call) :
    call.2.apply call.1 f ≠ none ↔ ¬ RemovesFirstBreak f call := by
  obtain ⟨lineNum, op⟩ := call
  have hs := reachable_sound hf
  cases op with
  | add c =>
    obtain ⟨o, f', he, _⟩ := add_cases hs c lineNum
    simp [FileOp.apply, he, RemovesFirstBreak]
  | remove x =>
    rcases remove_cases hs hi lineNum with ⟨o, f', he, _, hn⟩ | ⟨he, hb⟩
    · simp [FileOp.apply, he, RemovesFirstBreak, hn]
    · simp [FileOp.apply, he, RemovesFirstBreak, hb]

/-- The file `a`, emptied, and a line break put under the deleted character. -/
def breakOnTop : List Call :=
  [(0, .remove (1, 0)), (0, .add ⟨2, 1, .new '\n' 1 0⟩)]

theorem break_on_top_reachable :
    ∃ f, Reachable f ∧ f.projection = [[(2, 1), (0, 0)], []] ∧
      f.removeCrdt 0 (2, 1) = none := by
  refine ⟨_, ⟨_, breakOnTop, ⟨[], ['a'], 0, 1, rfl⟩,
    .cons ?_ ⟨_, rfl⟩ (.cons ?_ ⟨_, rfl⟩ (.nil _))⟩, rfl, rfl⟩
  · exact fun h => absurd h (by decide)
  · exact (rfl : (CrdtRelation.new '\n' 1 0).deleted = false)

theorem break_removal_crashes :
    ¬ ∀ f call, Reachable f → Issued f call → call.2.apply call.1 f ≠ none := by
  intro h
  obtain ⟨f, hf, _, hnone⟩ := break_on_top_reachable
  exact h f (0, .remove (2, 1)) hf (by simp [Issued, root]) hnone

theorem call_safe_iff_on_top : ∃ f, f.projection = [[(2, 1), (0, 0)], []] ∧
    ((FileOp.remove (2, 1)).apply 7 f ≠ none ↔ ¬ RemovesFirstBreak f (7, .remove (2, 1))) := by
  obtain ⟨f, hf, hp, _⟩ := break_on_top_reachable
  exact ⟨f, hp, call_safe_iff hf (7, .remove (2, 1)) (by simp [Issued, root])⟩

end FileSafety
