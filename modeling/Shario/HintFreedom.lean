import Shario.FileSafety

/-! The row hint of `tree.rs` is a starting point of the search and nothing else. -/
namespace HintFreedom

open CrdtTypes FileTree FileSearch FilePlacement GuardedRuns FileSafety

def SparesRoot (_ : SharFile) (call : Call) : Prop :=
  ∀ x, call.2 = .remove x → x ≠ root

/-- What adds, with or without the deleted flag, and removes make of a loaded file. -/
def Reached (f : SharFile) : Prop :=
  ∃ f₀ calls, Loaded f₀ ∧ Run Step SparesRoot f₀ calls f

/-- What no row hint changes in the file. -/
structure HintFree (f : SharFile) : Prop where
  once : f.projection.flatten.Nodup
  search : ∀ hint x, x ≠ root → ∃ r, findCrdt f.projection hint x = some r ∧
    ((∃ pos, r = .ok pos) ↔ x ∈ f.projection.flatten) ∧
    ∀ pos, r = .ok pos → StandsAt f.projection x pos
  add : ∀ hint hint' c, f.addCrdt hint c = f.addCrdt hint' c
  remove : ∀ hint hint' x, f.removeCrdt hint x = f.removeCrdt hint' x

section Hints

variable {f f' : SharFile} {p : Projection} {x : Identity}

theorem find_total (hint : ℕ) (hp : p ≠ []) (hx : x ≠ root) : ∃ r, findCrdt p hint x = some r ∧
    ((∃ pos, r = .ok pos) ↔ x ∈ p.flatten) ∧ ∀ pos, r = .ok pos → StandsAt p x pos := by
  rcases find_spec hint hp hx with ⟨pos, hpos, he⟩ | ⟨hnot, he⟩
  · refine ⟨_, he, iff_of_true ⟨pos, rfl⟩ (stands_at_mem hpos), fun pos' hpos' => ?_⟩
    rw [Except.ok.injEq] at hpos'
    exact hpos' ▸ hpos
  · refine ⟨_, he, iff_of_false ?_ hnot, ?_⟩
    · simp
    · simp

theorem find_hint (hp : p ≠ []) (hn : p.flatten.Nodup) (hint hint' : ℕ) (x : Identity) :
    findCrdt p hint x = findCrdt p hint' x := by
  by_cases hx : x = root
  · rw [hx, find_root, find_root]
  · rcases find_spec hint hp hx with ⟨pos, hpos, he⟩ | ⟨hnot, he⟩
    · rw [he, find_at hint' hn hx hpos]
    · rcases find_spec hint' hp hx with ⟨pos, hpos, _⟩ | ⟨_, he'⟩
      · exact absurd (stands_at_mem hpos) hnot
      · rw [he, he']

theorem tombstone_hint (hf : Sound f) (hint hint' fuel : ℕ) (x : Identity) :
    findTombstone f hint fuel x = findTombstone f hint' fuel x := by
  induction fuel generalizing x with
  | zero => rfl
  | succ fuel ih =>
    have hfind := find_hint hf.nonempty hf.nodup hint hint'
    simp only [findTombstone, ih, hfind]

theorem add_hint (hf : Sound f) (hint hint' : ℕ) (c : CRDT) :
    f.addCrdt hint c = f.addCrdt hint' c := by
  have hfind := find_hint hf.nonempty hf.nodup hint hint'
  have htomb := tombstone_hint hf hint hint'
  simp only [SharFile.addCrdt, hfind, htomb]

theorem remove_hint (hf : Sound f) (hint hint' : ℕ) (x : Identity) :
    f.removeCrdt hint x = f.removeCrdt hint' x := by
  have hfind := find_hint hf.nonempty hf.nodup hint hint'
  simp only [SharFile.removeCrdt, hfind]

theorem hintFree_of_sound (hf : Sound f) : HintFree f where
  once := hf.nodup
  search := fun hint _ hx => find_total hint hf.nonempty hx
  add := add_hint hf
  remove := remove_hint hf

theorem sound_spared {call : Call} (hf : Sound f) (hg : SparesRoot f call) (h : Step f call f') :
    Sound f' := by
  obtain ⟨hint, op⟩ := call
  obtain ⟨o, he⟩ := h
  cases op with
  | add c =>
    obtain ⟨o', g, he', ha⟩ := add_cases hf c hint
    rw [FileOp.apply, he', Option.some.injEq, Prod.mk.injEq] at he
    exact he.2 ▸ sound_added hf ha
  | remove x =>
    have hx : x ≠ root := hg x rfl
    rcases remove_cases hf hx hint with ⟨o', g, he', hr, _⟩ | ⟨he', _⟩
    · rw [FileOp.apply, he', Option.some.injEq, Prod.mk.injEq] at he
      exact he.2 ▸ sound_removed hf hx hr
    · rw [FileOp.apply, he'] at he
      exact absurd he (by simp)

theorem reached_sound (h : Reached f) : Sound f := by
  obtain ⟨f₀, calls, hl, hrun⟩ := h
  apply hrun.invariant (fun _ _ _ hf hg hs => sound_spared hf hg hs)
  exact loaded_sound hl

/-- In every history of adds and of removes that spare the root, no hint matters. -/
theorem reached_hintFree (h : Reached f) : HintFree f :=
  hintFree_of_sound (reached_sound h)

end Hints

/-- The file `ab` after one far-off hint. -/
theorem reached_hintFree_far : ∃ f, f.projection = [[(0, 0), (2, 0)]] ∧ HintFree f := by
  have hf : ∃ f, Reached f ∧ f.projection = [[(0, 0), (2, 0)]] :=
    ⟨_, ⟨_, [(99, .remove (1, 0))], ⟨[], ['a', 'b'], 0, 2, rfl⟩,
      .cons (fun x hx he => by simp_all [root]) ⟨_, rfl⟩ (.nil _)⟩, rfl⟩
  obtain ⟨f, hf, hp⟩ := hf
  exact ⟨f, hp, reached_hintFree hf⟩

end HintFreedom
