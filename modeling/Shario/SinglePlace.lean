import Shario.HintFreedom

/-! The place of a new character: there is at most one, and `add_crdt` uses it. -/
namespace SinglePlace

open CrdtTypes RowLayout FileTree FileSearch TreeOrder CharacterTree FilePlacement FileSafety

section Places

variable {f : SharFile} {x y a t a' t' : Identity} {A B A' B' : List (List Identity)}
  {pre post pre' post' : List Identity}

theorem anchor_unique (h : Anchor f.characters x t a) (h' : Anchor f.characters x t' a') :
    t = t' ∧ a = a' := by
  induction h generalizing t' a' with
  | live hx hl =>
    cases h' with
    | live hx' _ => exact ⟨rfl, Option.some.inj (hx.symm.trans hx')⟩
    | tomb hx' ht _ =>
      rw [hx, Option.some.injEq] at hx'
      subst hx'
      exact absurd hl ht.not_live
  | tomb hx ht _ ih =>
    cases h' with
    | live hx' hl =>
      rw [hx, Option.some.injEq] at hx'
      subst hx'
      exact absurd hl ht.not_live
    | tomb hx' _ ha =>
      rw [hx, Option.some.injEq] at hx'
      subst hx'
      exact ih ha

theorem slot_anchored (hf : Sound f) (h : Slot f x A pre post B) :
    ∃ t a, Anchor f.characters x t a ∧ (a ≠ root → a ∈ f.projection.flatten) := by
  induction h with
  | root hx _ => exact ⟨_, root, .live hx hf.rooted.root_live, fun h => absurd rfl h⟩
  | live hx _ hl hrows =>
    refine ⟨_, _, .live hx hl, fun _ => ?_⟩
    rw [hrows]
    simp
  | tomb hx ht _ ih =>
    obtain ⟨t, a, ha, hin⟩ := ih
    exact ⟨t, a, .tomb hx ht ha, hin⟩

theorem slot_unique (hf : Sound f) (h : Slot f x A pre post B) (h' : Slot f x A' pre' post' B') :
    A = A' ∧ pre = pre' ∧ post = post' ∧ B = B' := by
  induction h generalizing A' pre' post' B' with
  | root hx hrows =>
    cases h' with
    | root _ hrows' =>
      rw [hrows, List.cons.injEq] at hrows'
      obtain ⟨rfl, rfl⟩ := hrows'
      exact ⟨rfl, rfl, rfl, rfl⟩
    | live hx' hne _ _ => exact absurd (Option.some.inj (hx'.symm.trans hx)) hne
    | tomb hx' ht _ =>
      rw [hx, Option.some.injEq] at hx'
      subst hx'
      exact absurd hf.rooted.root_live ht.not_live
  | live hx hne hl hrows =>
    cases h' with
    | root hx' _ => exact absurd (Option.some.inj (hx.symm.trans hx')) hne
    | live hx' _ _ hrows' =>
      rw [hx, Option.some.injEq] at hx'
      subst hx'
      obtain ⟨rfl, rfl, rfl, rfl⟩ := place_unique (hrows ▸ hf.nodup) (hrows.symm.trans hrows')
      exact ⟨rfl, rfl, rfl, rfl⟩
    | tomb hx' ht _ =>
      rw [hx, Option.some.injEq] at hx'
      subst hx'
      exact absurd hl ht.not_live
  | tomb hx ht _ ih =>
    cases h' with
    | root hx' _ =>
      rw [hx, Option.some.injEq] at hx'
      subst hx'
      exact absurd hf.rooted.root_live ht.not_live
    | live hx' _ hl _ =>
      rw [hx, Option.some.injEq] at hx'
      subst hx'
      exact absurd hl ht.not_live
    | tomb hx' _ hs =>
      rw [hx, Option.some.injEq] at hx'
      subst hx'
      obtain ⟨rfl, rfl, rfl, rfl⟩ := ih hs
      exact ⟨rfl, rfl, rfl, rfl⟩

theorem place_of_parent_unique (hf : Sound f) (h : Place f y A pre post B)
    (h' : Place f y A' pre' post' B') : A = A' ∧ pre = pre' ∧ post = post' ∧ B = B' := by
  cases h with
  | root hrows =>
    cases h' with
    | root hrows' =>
      rw [hrows, List.cons.injEq] at hrows'
      obtain ⟨rfl, rfl⟩ := hrows'
      exact ⟨rfl, rfl, rfl, rfl⟩
    | live hne _ _ => exact absurd rfl hne
    | tomb ht _ => exact absurd rfl (hf.rooted.tomb_ne_root ht)
  | live hne hl hrows =>
    cases h' with
    | root _ => exact absurd rfl hne
    | live _ _ hrows' =>
      obtain ⟨rfl, rfl, rfl, rfl⟩ := place_unique (hrows ▸ hf.nodup) (hrows.symm.trans hrows')
      exact ⟨rfl, rfl, rfl, rfl⟩
    | tomb ht _ => exact absurd hl ht.not_live
  | tomb ht hs => exact slot_unique hf hs (h'.slot hf.rooted ht)

theorem place_not_unplaced (hf : Sound f) (h : Place f y A pre post B)
    (ha : Live f.characters y ∧ a = y ∨ Tomb f.characters y ∧ Anchor f.characters y t a)
    (hne : a ≠ root) : a ∈ f.projection.flatten := by
  rcases ha with ⟨hl, rfl⟩ | ⟨ht, ha⟩
  · cases h with
    | root _ => exact absurd rfl hne
    | live _ _ hrows =>
      rw [hrows]
      simp
    | tomb ht _ => exact absurd hl ht.not_live
  · obtain ⟨t', a', ha', hin⟩ := slot_anchored hf (h.slot hf.rooted ht)
    obtain ⟨_, rfl⟩ := anchor_unique ha ha'
    exact hin hne

theorem add_char_at {c : CRDT} (hf : Sound f) (h : Place f c.relation.parent A pre post B)
    (hpre : c.relation.parent = root → pre ≠ []) (hc : c.identity ∉ f.characters)
    (hb : isLineBreak c.relation.value = false) (hint : ℕ) :
    f.addCrdt hint c = some
      (.ok (some (A.length,
        (pre ++ post.takeWhile (skips f.characters c.relation.parent c.identity)).length)),
      landed f c (A ++ (pre ++ post.takeWhile (skips f.characters c.relation.parent c.identity) ++
        c.identity :: post.dropWhile (skips f.characters c.relation.parent c.identity)) :: B)) := by
  obtain ⟨o, g, he, ha⟩ := add_cases hf c hint
  rw [he]
  cases ha with
  | orphan hp => exact absurd (Place.parent_mem hf h) hp
  | duplicate _ hd => exact absurd hd hc
  | unplaced _ _ ha hne hnot => exact absurd (place_not_unplaced hf h ha hne) hnot
  | char _ _ h' _ =>
    obtain ⟨rfl, rfl, rfl, rfl⟩ := place_of_parent_unique hf h h'
    rfl
  | dropped _ _ hr hrows =>
    rw [hr] at h hpre
    obtain ⟨_, rfl, _, _⟩ := place_of_parent_unique hf h (.root hrows)
    exact absurd rfl (hpre rfl)
  | line _ hb' _ _ =>
    rw [hb] at hb'
    exact absurd hb' (by simp)
  | lineAbove _ hb' _ _ =>
    rw [hb] at hb'
    exact absurd hb' (by simp)

/-- A line break under a live parent splits the row right behind it. -/
theorem add_line_at {c : CRDT} (hf : Sound f) (h : Place f c.relation.parent A pre post B)
    (hl : Live f.characters c.relation.parent) (hc : c.identity ∉ f.characters)
    (hb : isLineBreak c.relation.value = true) (hint : ℕ) :
    f.addCrdt hint c = some (.ok (some (A.length + 1, 0)),
      landed f c (A ++ pre :: (c.identity :: post) :: B)) := by
  obtain ⟨o, g, he, ha⟩ := add_cases hf c hint
  rw [he]
  cases ha with
  | orphan hp => exact absurd hl.mem hp
  | duplicate _ hd => exact absurd hd hc
  | unplaced _ _ ha hne hnot => exact absurd (place_not_unplaced hf h ha hne) hnot
  | char _ hb' _ _ =>
    rw [hb] at hb'
    exact absurd hb' (by simp)
  | dropped _ hb' _ _ =>
    rw [hb] at hb'
    exact absurd hb' (by simp)
  | line _ _ _ h' =>
    obtain ⟨rfl, rfl, rfl, rfl⟩ := place_of_parent_unique hf h h'
    rfl
  | lineAbove _ _ ht _ => exact absurd hl ht.not_live

theorem add_above_at {c : CRDT} (hf : Sound f) (h : Slot f c.relation.parent A pre post B)
    (ht : Tomb f.characters c.relation.parent) (hc : c.identity ∉ f.characters)
    (hb : isLineBreak c.relation.value = true) (hint : ℕ) :
    f.addCrdt hint c = some (.ok (some (A.length + 1, 0)),
      landed f c (A ++ (c.identity :: post) :: pre :: B)) := by
  obtain ⟨o, g, he, ha⟩ := add_cases hf c hint
  rw [he]
  cases ha with
  | orphan hp => exact absurd ht.mem hp
  | duplicate _ hd => exact absurd hd hc
  | unplaced _ _ ha hne hnot => exact absurd (place_not_unplaced hf (.tomb ht h) ha hne) hnot
  | char _ hb' _ _ =>
    rw [hb] at hb'
    exact absurd hb' (by simp)
  | dropped _ hb' _ _ =>
    rw [hb] at hb'
    exact absurd hb' (by simp)
  | line _ _ hl _ => exact absurd hl ht.not_live
  | lineAbove _ _ _ h' =>
    obtain ⟨rfl, rfl, rfl, rfl⟩ := slot_unique hf h h'
    rfl

theorem add_nowhere {c : CRDT} (hf : Sound f) (hc : c.identity ∉ f.characters)
    (ha : Live f.characters c.relation.parent ∧ a = c.relation.parent ∨
      Tomb f.characters c.relation.parent ∧ Anchor f.characters c.relation.parent t a)
    (hne : a ≠ root) (hnot : a ∉ f.projection.flatten) (hint : ℕ) :
    f.addCrdt hint c = some (.error (.outOfBounds "parent could not be found"), f) := by
  have hp : c.relation.parent ∈ f.characters := ha.elim (fun h => h.1.mem) fun h => h.1.mem
  have hroot : c.relation.parent ≠ root := by
    intro hr
    rcases ha with ⟨_, he⟩ | ⟨ht, _⟩
    · exact hne (he.trans hr)
    · exact hf.rooted.tomb_ne_root ht hr
  obtain ⟨o, g, he, h⟩ := add_cases hf c hint
  rw [he]
  cases h with
  | orphan hn => exact absurd hp hn
  | duplicate _ hd => exact absurd hd hc
  | unplaced _ _ _ _ _ => rfl
  | char _ _ h _ => exact absurd (place_not_unplaced hf h ha hne) hnot
  | dropped _ _ hr _ => exact absurd hr hroot
  | line _ _ _ h => exact absurd (place_not_unplaced hf h ha hne) hnot
  | lineAbove _ _ ht h => exact absurd (place_not_unplaced hf (.tomb ht h) ha hne) hnot

theorem add_dropped {c : CRDT} (hf : Sound f) (hrows : f.projection = [] :: B)
    (hr : c.relation.parent = root) (hc : c.identity ∉ f.characters)
    (hb : isLineBreak c.relation.value = false) (hint : ℕ) :
    f.addCrdt hint c = some (.ok none, landed f c f.projection) := by
  obtain ⟨o, g, he, h⟩ := add_cases hf c hint
  rw [he]
  cases h with
  | orphan hn => exact absurd (hr ▸ hf.rooted.root_mem) hn
  | duplicate _ hd => exact absurd hd hc
  | unplaced _ _ ha hne hnot =>
    rcases ha with ⟨_, he⟩ | ⟨ht, _⟩
    · exact absurd (he.trans hr) hne
    · exact absurd hr (hf.rooted.tomb_ne_root ht)
  | char _ _ h hpre =>
    have hpre := hpre hr
    rw [hr] at h
    obtain ⟨_, rfl, _, _⟩ := place_of_parent_unique hf h (.root hrows)
    exact absurd rfl hpre
  | dropped _ _ _ _ => rfl
  | line _ hb' _ _ =>
    rw [hb] at hb'
    exact absurd hb' (by simp)
  | lineAbove _ hb' _ _ =>
    rw [hb] at hb'
    exact absurd hb' (by simp)

/-- The parents under which an add finds no place at all. -/
theorem place_or_none (hf : Sound f) (hy : y ∈ f.characters) :
    (∃ A pre post B, Place f y A pre post B) ∨
    ∃ t a, (Live f.characters y ∧ a = y ∨ Tomb f.characters y ∧ Anchor f.characters y t a) ∧
      a ≠ root ∧ a ∉ f.projection.flatten := by
  by_cases hr : y = root
  · obtain ⟨line, B, hrows⟩ := List.exists_cons_of_ne_nil hf.nonempty
    subst hr
    exact Or.inl ⟨_, _, _, _, .root hrows⟩
  rcases live_or_tomb hy with hl | ht
  · by_cases hin : y ∈ f.projection.flatten
    · obtain ⟨A, u, v, B, hrows⟩ := RowLayout.locate hin
      exact Or.inl ⟨_, _, _, _, .live hr hl hrows⟩
    · exact Or.inr ⟨root, y, Or.inl ⟨hl, rfl⟩, hr, hin⟩
  · obtain ⟨p, hp⟩ := hf.rooted.climbs y hy
    rcases find_tombstone_spec hf 0 hp hr _ le_rfl with
      ⟨A, pre, post, B, hs, _⟩ | ⟨t, a, _, ha, hne, hnot, _⟩
    · exact Or.inl ⟨_, _, _, _, .tomb ht hs⟩
    · exact Or.inr ⟨t, a, Or.inr ⟨ht, ha⟩, hne, hnot⟩

end Places

end SinglePlace
