import Shario.FileTree

/-! What the searches of `tree.rs` find: the ring search of `find_crdt` visits every
row whatever its hint, and the tie-break loop skips exactly the earlier siblings. -/
namespace FileSearch

open CrdtTypes RowLayout FileTree

def StandsAt (p : Projection) (x : Identity) (pos : Position) : Prop :=
  ∃ A u v B, p = A ++ (u ++ x :: v) :: B ∧ pos = (A.length, u.length)

theorem stands_at_of_index {p : Projection} {x : Identity} {r c : ℕ} {line : List Identity}
    (hr : p[r]? = some line) (hc : line.idxOf? x = some c) : StandsAt p x (r, c) := by
  obtain ⟨A, B, rfl, rfl⟩ := split_at_index hr
  obtain ⟨hlt, hx, _⟩ := List.idxOf?_eq_some_iff.mp hc
  obtain ⟨u, v, rfl, rfl⟩ := split_at_index (List.getElem?_eq_some_iff.mpr ⟨hlt, hx⟩)
  exact ⟨A, u, v, B, rfl, rfl⟩

theorem stands_at_mem {p : Projection} {x : Identity} {pos : Position} (h : StandsAt p x pos) :
    x ∈ p.flatten := by
  obtain ⟨A, u, v, B, rfl, _⟩ := h
  simp

theorem stands_at_unique {p : Projection} (hn : p.flatten.Nodup) {x : Identity}
    {pos pos' : Position} (h : StandsAt p x pos) (h' : StandsAt p x pos') : pos = pos' := by
  obtain ⟨A, u, v, B, rfl, rfl⟩ := h
  obtain ⟨A', u', v', B', he, rfl⟩ := h'
  obtain ⟨rfl, rfl, _, _⟩ := place_unique hn he
  rfl

section Ring

variable {p : Projection} {lineNum : ℕ} {x : Identity}

theorem check_up_cases (hl : lineNum < p.length) {up : ℕ} (h1 : 1 ≤ up) :
    (lineNum < up ∧ checkUp p lineNum x up = some (.error (.outOfBounds "up exhausted"), up)) ∨
    (∃ pos, StandsAt p x pos ∧ checkUp p lineNum x up = some (.ok pos, up)) ∨
    (up ≤ lineNum ∧ (∀ line, p[lineNum - up]? = some line → x ∉ line) ∧
      checkUp p lineNum x up = some (.error (.generic "not found on line"), up + 1)) := by
  unfold checkUp
  by_cases hu : lineNum < up
  · exact Or.inl ⟨hu, by rw [if_pos hu]⟩
  · have hr : p[lineNum - up]? = some p[lineNum - up] := List.getElem?_eq_getElem (by omega)
    cases hc : p[lineNum - up].idxOf? x with
    | some c => exact Or.inr (Or.inl ⟨_, stands_at_of_index hr hc, by simp [hu, hr, hc]⟩)
    | none =>
      refine Or.inr (Or.inr ⟨by omega, fun line he => ?_, by simp [hu, hr, hc]⟩)
      rw [hr, Option.some.injEq] at he
      exact he ▸ List.idxOf?_eq_none_iff.mp hc

theorem check_down_cases (p : Projection) (lineNum : ℕ) (x : Identity) (down : ℕ) :
    (p.length ≤ lineNum + down ∧
      checkDown p lineNum x down = some (.error (.outOfBounds "down exhausted"), down)) ∨
    (∃ pos, StandsAt p x pos ∧ checkDown p lineNum x down = some (.ok pos, down)) ∨
    (lineNum + down < p.length ∧ (∀ line, p[lineNum + down]? = some line → x ∉ line) ∧
      checkDown p lineNum x down =
        some (.error (.generic "not found on line"), down + 1)) := by
  unfold checkDown
  by_cases hd : p.length ≤ lineNum + down
  · exact Or.inl ⟨hd, by rw [if_pos hd]⟩
  · have hr : p[lineNum + down]? = some p[lineNum + down] := List.getElem?_eq_getElem (by omega)
    cases hc : p[lineNum + down].idxOf? x with
    | some c => exact Or.inr (Or.inl ⟨_, stands_at_of_index hr hc, by simp [hd, hr, hc]⟩)
    | none =>
      refine Or.inr (Or.inr ⟨by omega, fun line he => ?_, by simp [hd, hr, hc]⟩)
      rw [hr, Option.some.injEq] at he
      exact he ▸ List.idxOf?_eq_none_iff.mp hc

/-- The rows strictly between the two fronts of the search do not hold `x`. -/
def Scanned (p : Projection) (x : Identity) (lineNum up down : ℕ) : Prop :=
  ∀ k line, lineNum < k + up → k < lineNum + down → p[k]? = some line → x ∉ line

/-- Each round moves a front or closes it, so the loop ends within its fuel: at `x`,
or after every row was seen. -/
theorem ring_search_total (hl : lineNum < p.length) : ∀ (fuel up down : ℕ) (ue de : Bool),
    1 ≤ up → up ≤ lineNum + 1 → lineNum + down ≤ p.length → Scanned p x lineNum up down →
    (ue = true → up = lineNum + 1) → (de = true → lineNum + down = p.length) →
    (if ue then 0 else lineNum + 2 - up) + (if de then 0 else p.length + 1 - (lineNum + down)) <
      fuel →
    (∃ pos, StandsAt p x pos ∧ ringSearch p lineNum x fuel up down ue de = some (.ok pos)) ∨
    (x ∉ p.flatten ∧ ringSearch p lineNum x fuel up down ue de =
      some (.error (.outOfBounds "parent cannot be found"))) := by
  intro fuel
  induction fuel with
  | zero => intro up down ue de _ _ _ _ _ _ hf; omega
  | succ fuel ih =>
    intro up down ue de h1 hup hdown hs hue hde hf
    rw [ringSearch]
    by_cases hex : (ue && de) = true
    · rw [if_pos hex]
      rw [Bool.and_eq_true] at hex
      refine Or.inr ⟨fun hm => ?_, rfl⟩
      obtain ⟨line, hline, hx⟩ := List.mem_flatten.mp hm
      obtain ⟨k, hk⟩ := List.mem_iff_getElem?.mp hline
      have hlt := (List.getElem?_eq_some_iff.mp hk).1
      have hu := hue hex.1
      have hd := hde hex.2
      exact hs k line (by omega) (by omega) hk hx
    · rw [if_neg hex]
      -- the state after `check_up`, then the one after `check_down`
      rcases check_up_cases (x := x) hl h1 with ⟨hu, he⟩ | ⟨pos, hpos, he⟩ | ⟨hu, hrow, he⟩
      · simp only [he, Option.bind_eq_bind, Option.bind_some, beq_self_eq_true, Bool.or_true]
        rcases check_down_cases p lineNum x down with
          ⟨hd, he'⟩ | ⟨pos, hpos, he'⟩ | ⟨hd, hrow, he'⟩
        · simp only [he', Option.bind_some, beq_self_eq_true, Bool.or_true]
          refine ih up down true true h1 hup hdown hs (fun _ => by omega) (fun _ => by omega) ?_
          simp only [if_true]
          cases ue with
          | false =>
            simp only [if_false, Bool.false_eq_true] at hf
            omega
          | true =>
            cases de with
            | false =>
              simp only [if_true, if_false, Bool.false_eq_true] at hf
              omega
            | true => exact absurd rfl hex
        · exact Or.inl ⟨pos, hpos, by simp [he']⟩
        · have hne : (Error.generic "not found on line" == .outOfBounds "down exhausted") = false :=
            rfl
          simp only [he', Option.bind_some, hne, Bool.or_false]
          refine ih up (down + 1) true de h1 hup (by omega) ?_ (fun _ => by omega)
            (fun h => by have := hde h; omega) ?_
          · intro k line hk hk' hline
            by_cases hkd : k = lineNum + down
            · subst hkd; exact hrow line hline
            · exact hs k line hk (by omega) hline
          · have hdf : de = false := by
              cases de
              · rfl
              · have := hde rfl; omega
            simp only [hdf, if_true, if_false, Bool.false_eq_true] at hf ⊢
            omega
      · exact Or.inl ⟨pos, hpos, by simp [he]⟩
      · have hne : (Error.generic "not found on line" == .outOfBounds "up exhausted") = false := rfl
        have huf : ue = false := by
          cases ue
          · rfl
          · have := hue rfl; omega
        have hs' : Scanned p x lineNum (up + 1) down := by
          intro k line hk hk' hline
          by_cases hku : k = lineNum - up
          · subst hku; exact hrow line hline
          · exact hs k line (by omega) hk' hline
        simp only [he, Option.bind_eq_bind, Option.bind_some, hne, Bool.or_false, huf]
        rcases check_down_cases p lineNum x down with
          ⟨hd, he'⟩ | ⟨pos, hpos, he'⟩ | ⟨hd, hrow', he'⟩
        · simp only [he', Option.bind_some, beq_self_eq_true, Bool.or_true]
          refine ih (up + 1) down false true (by omega) (by omega) hdown hs' (by simp)
            (fun _ => by omega) ?_
          simp only [huf, if_false, Bool.false_eq_true, if_true] at hf ⊢
          omega
        · exact Or.inl ⟨pos, hpos, by simp [he']⟩
        · have hne' : (Error.generic "not found on line" == .outOfBounds "down exhausted") =
            false := rfl
          simp only [he', Option.bind_some, hne', Bool.or_false]
          refine ih (up + 1) (down + 1) false de (by omega) (by omega) (by omega) ?_ (by simp)
            (fun h => by have := hde h; omega) ?_
          · intro k line hk hk' hline
            by_cases hkd : k = lineNum + down
            · subst hkd; exact hrow' line hline
            · exact hs' k line hk (by omega) hline
          · have hdf : de = false := by
              cases de
              · rfl
              · have := hde rfl; omega
            simp only [huf, hdf, if_false, Bool.false_eq_true] at hf ⊢
            omega

theorem find_root (lineNum : ℕ) : findCrdt p lineNum root = some (.ok (0, 0)) := by
  rw [findCrdt, if_pos rfl]

/-- `find_crdt` finds a character exactly when it stands somewhere, from every hint. -/
theorem find_spec (lineNum : ℕ) (hp : p ≠ []) (hx : x ≠ root) :
    (∃ pos, StandsAt p x pos ∧ findCrdt p lineNum x = some (.ok pos)) ∨
    (x ∉ p.flatten ∧ findCrdt p lineNum x =
      some (.error (.outOfBounds "parent cannot be found"))) := by
  have hlen : 0 < p.length := List.length_pos_iff.mpr hp
  obtain ⟨n, hn, hlt⟩ : ∃ n, (if lineNum < p.length then lineNum else 0) = n ∧ n < p.length := by
    refine ⟨_, rfl, ?_⟩
    split <;> omega
  have hr : p[n]? = some p[n] := List.getElem?_eq_getElem hlt
  simp only [findCrdt, if_neg hx, hn, hr, Option.bind_eq_bind, Option.bind_some]
  cases hc : p[n].idxOf? x with
  | some c => exact Or.inl ⟨_, stands_at_of_index hr hc, rfl⟩
  | none =>
    refine ring_search_total hlt _ 1 1 false false le_rfl (by omega) (by omega) ?_ (by simp)
      (by simp) (by simp only [if_false, Bool.false_eq_true]; omega)
    intro k line hk hk' hline
    obtain rfl : k = n := by omega
    rw [hr, Option.some.injEq] at hline
    exact hline ▸ List.idxOf?_eq_none_iff.mp hc

theorem find_at (lineNum : ℕ) (hp : p.flatten.Nodup) (hx : x ≠ root) {pos : Position}
    (h : StandsAt p x pos) : findCrdt p lineNum x = some (.ok pos) := by
  have hne : p ≠ [] := by
    rintro rfl
    exact absurd (stands_at_mem h) (by simp)
  rcases find_spec lineNum hne hx with ⟨pos', hpos', he⟩ | ⟨hnot, _⟩
  · rw [he, stands_at_unique hp hpos' h]
  · exact absurd (stands_at_mem h) hnot

end Ring

/-- Larger id first, then smaller peer. -/
def sibling (a b : Identity) : Prop := b.1 < a.1 ∨ (b.1 = a.1 ∧ a.2 < b.2)

instance (a b : Identity) : Decidable (sibling a b) :=
  inferInstanceAs (Decidable (_ < _ ∨ (_ = _ ∧ _ < _)))

instance : IsTrans Identity sibling := ⟨fun _ _ _ h k => by unfold sibling at *; omega⟩
instance : Std.Irrefl sibling := ⟨fun _ => by simp [sibling]⟩
instance : Std.Asymm sibling := ⟨fun _ _ h k => by unfold sibling at *; omega⟩
instance : Std.Trichotomous sibling :=
  ⟨fun a b h k => by
    obtain ⟨h1, h2⟩ : a.1 = b.1 ∧ a.2 = b.2 := by unfold sibling at *; omega
    exact Prod.ext h1 h2⟩

/-- The elements the loop passes over on behalf of `x`, a child of `parent`. -/
def skips (m : Characters) (parent x e : Identity) : Bool :=
  ((m.lookup e).map CrdtRelation.parent == some parent) && decide (sibling e x)

theorem tie_break_eq (m : Characters) (parent x : Identity) (offset : ℕ) :
    ∀ (post pre : List Identity) (count j : ℕ), (∀ e ∈ post, e ∈ m) → j + offset = pre.length →
    post.length < count →
    tieBreak m (pre ++ post) parent x.1 x.2 offset count j =
      some (some (pre.length + (post.takeWhile (skips m parent x)).length)) := by
  intro post
  induction post with
  | nil =>
    intro pre count j _ hj hc
    obtain ⟨count, rfl⟩ : ∃ c, count = c + 1 := ⟨count - 1, by simp at hc; omega⟩
    simp [tieBreak, hj]
  | cons e post ih =>
    intro pre count j hm hj hc
    obtain ⟨count, rfl⟩ : ∃ c, count = c + 1 := ⟨count - 1, by simp at hc; omega⟩
    obtain ⟨info, hinfo⟩ := Finmap.mem_iff.mp (hm e (by simp))
    have hget : (pre ++ e :: post)[j + offset]? = some e := by rw [hj]; simp
    rw [tieBreak, hget]
    simp only [hinfo, Option.bind_eq_bind, Option.bind_some]
    have next := ih (pre ++ [e]) count (j + 1) (fun y hy => hm y (by simp [hy]))
      (by simp; omega) (by simp at hc; omega)
    rw [List.append_assoc, List.singleton_append] at next
    have hskip : skips m parent x e = true ↔ info.parent = parent ∧ sibling e x := by
      simp [skips, hinfo]
    by_cases hp : info.parent = parent
    · rw [if_neg (not_not.mpr hp)]
      by_cases hs : sibling e x
      · have htrue : skips m parent x e = true := hskip.mpr ⟨hp, hs⟩
        have hne : ¬ e.1 < x.1 := by unfold sibling at hs; omega
        rw [if_neg hne, List.takeWhile_cons_of_pos htrue]
        have hgoal : tieBreak m (pre ++ e :: post) parent x.1 x.2 offset count (j + 1) =
            some (some (pre.length + (e :: post.takeWhile (skips m parent x)).length)) := by
          rw [next]
          simp
          omega
        by_cases he : e.1 = x.1
        · rw [if_pos he, if_pos (by unfold sibling at hs; omega), hgoal]
        · rw [if_neg he, hgoal]
      · have hfalse : ¬ skips m parent x e = true := fun h => hs (hskip.mp h).2
        simp only [List.takeWhile_cons_of_neg hfalse, List.length_nil, Nat.add_zero, hj]
        by_cases hlt : e.1 < x.1
        · rw [if_pos hlt]
        · have he : e.1 = x.1 := by unfold sibling at hs; omega
          rw [if_neg hlt, if_pos he, if_neg (by unfold sibling at hs; omega)]
    · have hfalse : ¬ skips m parent x e = true := fun h => hp (hskip.mp h).1
      simp only [List.takeWhile_cons_of_neg hfalse, List.length_nil, Nat.add_zero, hj]
      rw [if_pos hp]

end FileSearch
