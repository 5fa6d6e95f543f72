import Mathlib.Data.List.Basic
import Mathlib.Data.List.Nodup

/-! Vectors with partial positional operations, and sequences laid out in rows:
the first row holds no break, every later row starts with one. -/
namespace RowLayout

variable {α : Type*}

def insertAt (l : List α) (i : ℕ) (x : α) : Option (List α) :=
  if i ≤ l.length then some (l.insertIdx i x) else none

def removeAt (l : List α) (i : ℕ) : Option (List α) :=
  if i < l.length then some (l.eraseIdx i) else none

def splitOff (l : List α) (i : ℕ) : Option (List α × List α) :=
  if i ≤ l.length then some (l.take i, l.drop i) else none

@[simp] theorem insertAt_append (u v : List α) (x : α) :
    insertAt (u ++ v) u.length x = some (u ++ x :: v) := by
  simp only [insertAt, List.length_append, Nat.le_add_right, if_true, Option.some.injEq]
  induction u with
  | nil => simp
  | cons a u ih => simpa using ih

@[simp] theorem removeAt_append (u v : List α) (x : α) :
    removeAt (u ++ x :: v) u.length = some (u ++ v) := by
  simp [removeAt, List.eraseIdx_append_of_length_le]

@[simp] theorem splitOff_append (u v : List α) :
    splitOff (u ++ v) u.length = some (u, v) := by
  simp [splitOff]

@[simp] theorem getElem?_middle (u v : List α) (x : α) : (u ++ x :: v)[u.length]? = some x := by
  simp

@[simp] theorem set_middle (u v : List α) (x y : α) :
    (u ++ x :: v).set u.length y = u ++ y :: v := by
  simp

theorem insertAt_behind (u v : List α) (a x : α) :
    insertAt (u ++ a :: v) (u.length + 1) x = some (u ++ a :: x :: v) := by
  have h := insertAt_append (u ++ [a]) v x
  simpa only [List.length_append, List.length_singleton, List.append_assoc,
    List.singleton_append] using h

theorem removeAt_behind (u v : List α) (a x : α) :
    removeAt (u ++ a :: x :: v) (u.length + 1) = some (u ++ a :: v) := by
  have h := removeAt_append (u ++ [a]) v x
  simpa only [List.length_append, List.length_singleton, List.append_assoc,
    List.singleton_append] using h

theorem getElem?_behind (u v : List α) (a : α) : (u ++ a :: v)[u.length + 1]? = v.head? := by
  rw [List.getElem?_append_right (by omega), Nat.add_sub_cancel_left, List.getElem?_cons_succ,
    List.head?_eq_getElem?]

theorem split_at_index {l : List α} {i : ℕ} {x : α} (h : l[i]? = some x) :
    ∃ u v, l = u ++ x :: v ∧ u.length = i := by
  obtain ⟨hi, rfl⟩ := List.getElem?_eq_some_iff.mp h
  exact ⟨l.take i, l.drop (i + 1), by simp, by simp; omega⟩

theorem takeWhile_congr {p q : α → Bool} {l : List α} (h : ∀ e ∈ l, p e = q e) :
    l.takeWhile p = l.takeWhile q := by
  induction l with
  | nil => rfl
  | cons a l ih =>
    rw [List.takeWhile_cons, List.takeWhile_cons, h a (by simp),
      ih fun e he => h e (by simp [he])]

theorem dropWhile_congr {p q : α → Bool} {l : List α} (h : ∀ e ∈ l, p e = q e) :
    l.dropWhile p = l.dropWhile q := by
  induction l with
  | nil => rfl
  | cons a l ih =>
    rw [List.dropWhile_cons, List.dropWhile_cons, h a (by simp),
      ih fun e he => h e (by simp [he])]

theorem scan_stops {k : α → Bool} {u v : List α} (hu : ∀ e ∈ u, k e = true)
    (hv : ∀ e ∈ v.head?, k e = false) : (u ++ v).takeWhile k = u ∧ (u ++ v).dropWhile k = v := by
  rw [List.takeWhile_append_of_pos hu, List.dropWhile_append_of_pos hu]
  cases v with
  | nil => simp
  | cons e v =>
    have he : k e = false := hv e rfl
    simp [he]

theorem split_unique {u v u' v' : List α} {x : α} (hn : (u ++ x :: v).Nodup)
    (h : u ++ x :: v = u' ++ x :: v') : u = u' ∧ v = v' := by
  induction u generalizing u' with
  | nil =>
    cases u' with
    | nil => simpa using h
    | cons b u' =>
      simp only [List.nil_append, List.cons_append, List.cons.injEq] at h
      obtain ⟨rfl, rfl⟩ := h
      simp at hn
  | cons a u ih =>
    cases u' with
    | nil =>
      simp only [List.nil_append, List.cons_append, List.cons.injEq] at h
      obtain ⟨rfl, rfl⟩ := h
      simp at hn
    | cons b u' =>
      simp only [List.cons_append, List.cons.injEq] at h
      obtain ⟨rfl, h⟩ := h
      obtain ⟨rfl, rfl⟩ := ih (List.nodup_cons.mp (by simpa using hn)).2 h
      exact ⟨rfl, rfl⟩

theorem locate {rows : List (List α)} {x : α} (h : x ∈ rows.flatten) :
    ∃ A u v B, rows = A ++ (u ++ x :: v) :: B := by
  obtain ⟨row, hrow, hx⟩ := List.mem_flatten.mp h
  obtain ⟨A, B, rfl⟩ := List.append_of_mem hrow
  obtain ⟨u, v, rfl⟩ := List.append_of_mem hx
  exact ⟨A, u, v, B, rfl⟩

theorem flatten_middle (A B : List (List α)) (u v : List α) :
    (A ++ (u ++ v) :: B).flatten = (A.flatten ++ u) ++ (v ++ B.flatten) := by
  simp

theorem insert_perm (A B : List (List α)) (u v : List α) (x : α) :
    (A ++ (u ++ x :: v) :: B).flatten.Perm (x :: (A ++ (u ++ v) :: B).flatten) := by
  rw [flatten_middle, flatten_middle, List.cons_append]
  exact List.perm_middle

theorem split_perm (A B : List (List α)) (u v : List α) (x : α) :
    (A ++ u :: (x :: v) :: B).flatten.Perm (x :: (A ++ (u ++ v) :: B).flatten) := by
  have hrows : (A ++ u :: (x :: v) :: B).flatten = (A ++ (u ++ x :: v) :: B).flatten := by simp
  rw [hrows]
  exact insert_perm A B u v x

theorem above_perm (A B : List (List α)) (u v : List α) (x : α) :
    (A ++ (x :: v) :: u :: B).flatten.Perm (x :: (A ++ (u ++ v) :: B).flatten) := by
  simp only [List.flatten_append, List.flatten_cons, List.cons_append]
  refine List.perm_middle.trans (List.Perm.cons _ (List.Perm.append_left _ ?_))
  rw [← List.append_assoc]
  exact List.Perm.append_right _ List.perm_append_comm

/-- A change behind `y` leaves what stands in front of `x`, unless `y` does. -/
theorem front_kept {w v u post s : List α} {x y : α} (h : w ++ x :: v = u ++ y :: post)
    (hw : y ∉ w) : ∃ v', u ++ y :: s = w ++ x :: v' := by
  rcases List.append_eq_append_iff.mp h with ⟨e, rfl, he⟩ | ⟨e, rfl, he⟩
  · cases e with
    | nil =>
      obtain ⟨rfl, _⟩ := List.cons.inj he
      exact ⟨s, by simp⟩
    | cons a e =>
      obtain ⟨rfl, _⟩ := List.cons.inj he
      exact ⟨e ++ y :: s, by simp⟩
  · cases e with
    | nil =>
      obtain ⟨rfl, _⟩ := List.cons.inj he
      exact ⟨s, by simp⟩
    | cons a e =>
      obtain ⟨rfl, _⟩ := List.cons.inj he
      exact absurd (by simp) hw

theorem front_rows_kept {A A' B B' C : List (List α)} {w v u post s : List α} {x y : α}
    (h : A ++ (w ++ x :: v) :: B = A' ++ (u ++ y :: post) :: B') (hA : y ∉ A.flatten)
    (hw : y ∉ w) : ∃ v' D, A' ++ (u ++ y :: s) :: C = A ++ (w ++ x :: v') :: D := by
  rcases List.append_eq_append_iff.mp h with ⟨E, rfl, he⟩ | ⟨E, rfl, he⟩
  · cases E with
    | nil =>
      obtain ⟨v', hv⟩ := front_kept (s := s) (List.cons.inj he).1 hw
      exact ⟨v', C, by rw [hv, List.append_nil]⟩
    | cons r E =>
      obtain ⟨rfl, _⟩ := List.cons.inj he
      exact ⟨v, E ++ (u ++ y :: s) :: C, by simp⟩
  · cases E with
    | nil =>
      obtain ⟨v', hv⟩ := front_kept (s := s) (List.cons.inj he).1.symm hw
      exact ⟨v', C, by rw [hv, List.append_nil]⟩
    | cons r E =>
      obtain ⟨rfl, _⟩ := List.cons.inj he
      exact absurd (by simp) hA

theorem erase_sublist (A B : List (List α)) (u v : List α) (x : α) :
    (A ++ (u ++ v) :: B).flatten.Sublist (A ++ (u ++ x :: v) :: B).flatten := by
  rw [flatten_middle, flatten_middle, List.cons_append]
  exact List.Sublist.append_left (List.sublist_cons_self _ _) _

theorem merge_sublist (A B : List (List α)) (u v : List α) (x : α) :
    (A ++ (u ++ v) :: B).flatten.Sublist (A ++ u :: (x :: v) :: B).flatten := by
  have hrows : (A ++ u :: (x :: v) :: B).flatten = (A ++ (u ++ x :: v) :: B).flatten := by simp
  rw [hrows]
  exact erase_sublist A B u v x

theorem place_unique {A B A' B' : List (List α)} {u v u' v' : List α} {x : α}
    (hn : (A ++ (u ++ x :: v) :: B).flatten.Nodup)
    (h : A ++ (u ++ x :: v) :: B = A' ++ (u' ++ x :: v') :: B') :
    A = A' ∧ u = u' ∧ v = v' ∧ B = B' := by
  have hnot : ∀ {A B : List (List α)} {row row' : List α},
      (A ++ row :: B).flatten.Nodup → x ∈ row → x ∈ row' →
      ∀ {A' B'}, A ++ row :: B = A' ++ row' :: B' → A = A' ∧ row = row' ∧ B = B' := by
    intro A
    induction A with
    | nil =>
      intro B row row' hn hx hx' A' B' h
      cases A' with
      | nil => simpa using h
      | cons r A' =>
        simp only [List.nil_append, List.cons_append, List.cons.injEq] at h
        obtain ⟨rfl, rfl⟩ := h
        simp only [List.nil_append, List.flatten_cons] at hn
        exact absurd (List.mem_flatten.mpr ⟨row', by simp, hx'⟩)
          (List.disjoint_of_nodup_append hn hx)
    | cons r A ih =>
      intro B row row' hn hx hx' A' B' h
      simp only [List.cons_append, List.flatten_cons] at hn
      cases A' with
      | nil =>
        simp only [List.nil_append, List.cons_append, List.cons.injEq] at h
        obtain ⟨rfl, rfl⟩ := h
        exact absurd (List.mem_flatten.mpr ⟨row, by simp, hx⟩)
          (List.disjoint_of_nodup_append hn hx')
      | cons r' A' =>
        simp only [List.cons_append, List.cons.injEq] at h
        obtain ⟨rfl, h⟩ := h
        obtain ⟨rfl, rfl, rfl⟩ := ih (List.nodup_append'.mp hn).2.1 hx hx' h
        exact ⟨rfl, rfl, rfl⟩
  obtain ⟨rfl, hrow, rfl⟩ := hnot hn (by simp) (by simp) h
  rw [List.nodup_flatten] at hn
  obtain ⟨rfl, rfl⟩ := split_unique (hn.1 _ (by simp)) hrow
  exact ⟨rfl, rfl, rfl, rfl⟩

variable {brk brk' : α → Prop}

def BreakRow (brk : α → Prop) (row : List α) : Prop :=
  ∃ b u, row = b :: u ∧ brk b ∧ ∀ x ∈ u, ¬ brk x

def Layout (brk : α → Prop) : List (List α) → Prop
  | [] => False
  | row :: rows => (∀ x ∈ row, ¬ brk x) ∧ ∀ r ∈ rows, BreakRow brk r

private theorem first_row_unique {r r' s s' : List α} (hr : ∀ x ∈ r, ¬ brk x)
    (hr' : ∀ x ∈ r', ¬ brk x) (hs : ∀ x ∈ s.head?, brk x) (hs' : ∀ x ∈ s'.head?, brk x)
    (h : r ++ s = r' ++ s') : r = r' ∧ s = s' := by
  rcases List.append_eq_append_iff.mp h with ⟨m, rfl, rfl⟩ | ⟨m, rfl, rfl⟩
  · cases m with
    | nil => simp
    | cons a m => exact absurd (hs a (by simp)) (hr' a (by simp))
  · cases m with
    | nil => simp
    | cons a m => exact absurd (hs' a (by simp)) (hr a (by simp))

private theorem breaks_head {rows : List (List α)} (h : ∀ r ∈ rows, BreakRow brk r) :
    ∀ x ∈ rows.flatten.head?, brk x := by
  cases rows with
  | nil => simp
  | cons r rows =>
    obtain ⟨b, u, rfl, hb, _⟩ := h r (by simp)
    simpa using hb

theorem layout_unique {rows rows' : List (List α)} (h : Layout brk rows) (h' : Layout brk rows')
    (he : rows.flatten = rows'.flatten) : rows = rows' := by
  have hrest : ∀ {rows rows' : List (List α)}, (∀ r ∈ rows, BreakRow brk r) →
      (∀ r ∈ rows', BreakRow brk r) → rows.flatten = rows'.flatten → rows = rows' := by
    intro rows
    induction rows with
    | nil =>
      intro rows' _ h' he
      cases rows' with
      | nil => rfl
      | cons r rows' =>
        obtain ⟨b, u, rfl, _, _⟩ := h' r (by simp)
        simp at he
    | cons r rows ih =>
      intro rows' h h' he
      obtain ⟨b, u, rfl, hb, hu⟩ := h r (by simp)
      cases rows' with
      | nil => simp at he
      | cons r' rows' =>
        obtain ⟨b', u', rfl, hb', hu'⟩ := h' r' (by simp)
        simp only [List.flatten_cons, List.cons_append, List.cons.injEq] at he
        have hr : ∀ r ∈ rows, BreakRow brk r := fun r hr => h r (by simp [hr])
        have hr' : ∀ r ∈ rows', BreakRow brk r := fun r hr => h' r (by simp [hr])
        obtain ⟨rfl, hf⟩ := first_row_unique hu hu' (breaks_head hr) (breaks_head hr') he.2
        rw [he.1, ih hr hr' hf]
  cases rows with
  | nil => exact h.elim
  | cons r rows =>
    cases rows' with
    | nil => exact h'.elim
    | cons r' rows' =>
      obtain ⟨rfl, hf⟩ := first_row_unique h.1 h'.1 (breaks_head h.2) (breaks_head h'.2) he
      rw [hrest h.2 h'.2 hf]

theorem layout_congr {rows : List (List α)} (h : Layout brk rows)
    (hb : ∀ x ∈ rows.flatten, brk x ↔ brk' x) : Layout brk' rows := by
  cases rows with
  | nil => exact h
  | cons r rows =>
    refine ⟨fun x hx => ?_, fun s hs => ?_⟩
    · rw [← hb x (by simp [hx])]
      exact h.1 x hx
    · obtain ⟨b, u, rfl, hbb, hu⟩ := h.2 s hs
      have hin : ∀ x ∈ b :: u, x ∈ (r :: rows).flatten := fun x hx =>
        List.mem_flatten.mpr ⟨_, List.mem_cons_of_mem _ hs, hx⟩
      refine ⟨b, u, rfl, (hb b (hin b (by simp))).mp hbb, fun x hx => ?_⟩
      rw [← hb x (hin x (by simp [hx]))]
      exact hu x hx

theorem layout_middle {A B : List (List α)} {row : List α} :
    Layout brk (A ++ row :: B) ↔
      (A = [] ∧ (∀ x ∈ row, ¬ brk x) ∧ ∀ r ∈ B, BreakRow brk r) ∨
      (Layout brk A ∧ BreakRow brk row ∧ ∀ r ∈ B, BreakRow brk r) := by
  cases A with
  | nil => simp [Layout]
  | cons a A =>
    simp only [Layout, List.cons_append, List.mem_append, List.mem_cons, reduceCtorEq,
      false_and, false_or]
    constructor
    · rintro ⟨h, k⟩
      exact ⟨⟨h, fun r hr => k r (Or.inl hr)⟩, k row (by simp), fun r hr => k r (by simp [hr])⟩
    · rintro ⟨⟨h, k⟩, hr, hb⟩
      exact ⟨h, fun r hm => hm.elim (k r) (fun hm => hm.elim (fun he => he ▸ hr) (hb r))⟩

theorem layout_insert {A B : List (List α)} {u v : List α} {x : α}
    (h : Layout brk (A ++ (u ++ v) :: B)) (hx : ¬ brk x) (hu : u ≠ []) :
    Layout brk (A ++ (u ++ x :: v) :: B) := by
  rw [layout_middle] at h ⊢
  rcases h with ⟨hA, hr, hB⟩ | ⟨hA, ⟨b, w, he, hb, hw⟩, hB⟩
  · refine Or.inl ⟨hA, fun y hy => ?_, hB⟩
    rcases List.mem_append.mp hy with hy | hy
    · exact hr y (by simp [hy])
    · rcases List.mem_cons.mp hy with rfl | hy
      · exact hx
      · exact hr y (by simp [hy])
  · cases u with
    | nil => exact absurd rfl hu
    | cons a u =>
      simp only [List.cons_append, List.cons.injEq] at he
      obtain ⟨rfl, rfl⟩ := he
      refine Or.inr ⟨hA, ⟨a, u ++ x :: v, rfl, hb, fun y hy => ?_⟩, hB⟩
      rcases List.mem_append.mp hy with hy | hy
      · exact hw y (by simp [hy])
      · rcases List.mem_cons.mp hy with rfl | hy
        · exact hx
        · exact hw y (by simp [hy])

theorem layout_split {A B : List (List α)} {u v : List α} {x : α}
    (h : Layout brk (A ++ (u ++ v) :: B)) (hx : brk x) (hu : u ≠ []) :
    Layout brk (A ++ u :: (x :: v) :: B) := by
  rw [layout_middle] at h ⊢
  rcases h with ⟨hA, hr, hB⟩ | ⟨hA, ⟨b, w, he, hb, hw⟩, hB⟩
  · have hnew : BreakRow brk (x :: v) := ⟨x, v, rfl, hx, fun y hy => hr y (by simp [hy])⟩
    refine Or.inl ⟨hA, fun y hy => hr y (by simp [hy]), fun r hm => ?_⟩
    rcases List.mem_cons.mp hm with rfl | hm
    · exact hnew
    · exact hB r hm
  · cases u with
    | nil => exact absurd rfl hu
    | cons a u =>
      simp only [List.cons_append, List.cons.injEq] at he
      obtain ⟨rfl, rfl⟩ := he
      have hnew : BreakRow brk (x :: v) := ⟨x, v, rfl, hx, fun y hy => hw y (by simp [hy])⟩
      refine Or.inr ⟨hA, ⟨a, u, rfl, hb, fun y hy => hw y (by simp [hy])⟩, fun r hm => ?_⟩
      rcases List.mem_cons.mp hm with rfl | hm
      · exact hnew
      · exact hB r hm

theorem layout_above {A B : List (List α)} {u v : List α} {x : α}
    (h : Layout brk (A ++ (u ++ v) :: B)) (hx : brk x) (hu : u ≠ []) (hA : A ≠ []) :
    Layout brk (A ++ (x :: v) :: u :: B) := by
  rw [layout_middle] at h ⊢
  obtain ⟨hl, ⟨b, w, he, hb, hw⟩, hB⟩ := h.resolve_left fun h => hA h.1
  cases u with
  | nil => exact absurd rfl hu
  | cons a u =>
    simp only [List.cons_append, List.cons.injEq] at he
    obtain ⟨rfl, rfl⟩ := he
    refine Or.inr ⟨hl, ⟨x, v, rfl, hx, fun y hy => hw y (by simp [hy])⟩, fun r hm => ?_⟩
    rcases List.mem_cons.mp hm with rfl | hm
    · exact ⟨a, u, rfl, hb, fun y hy => hw y (by simp [hy])⟩
    · exact hB r hm

theorem layout_erase {A B : List (List α)} {u v : List α} {x : α}
    (h : Layout brk (A ++ (u ++ x :: v) :: B)) (hx : ¬ brk x) :
    Layout brk (A ++ (u ++ v) :: B) := by
  rw [layout_middle] at h ⊢
  rcases h with ⟨hA, hr, hB⟩ | ⟨hA, ⟨b, w, he, hb, hw⟩, hB⟩
  · refine Or.inl ⟨hA, fun y hy => hr y ?_, hB⟩
    rcases List.mem_append.mp hy with hy | hy <;> simp [hy]
  · cases u with
    | nil =>
      simp only [List.nil_append, List.cons.injEq] at he
      exact absurd (he.1 ▸ hb) hx
    | cons a u =>
      simp only [List.cons_append, List.cons.injEq] at he
      obtain ⟨rfl, rfl⟩ := he
      refine Or.inr ⟨hA, ⟨a, u ++ v, rfl, hb, fun y hy => hw y ?_⟩, hB⟩
      rcases List.mem_append.mp hy with hy | hy <;> simp [hy]

theorem layout_merge {A B : List (List α)} {r v : List α} {x : α}
    (h : Layout brk (A ++ r :: (x :: v) :: B)) : Layout brk (A ++ (r ++ v) :: B) := by
  rw [layout_middle] at h ⊢
  rcases h with ⟨hA, hr, hB⟩ | ⟨hA, ⟨b, w, rfl, hb, hw⟩, hB⟩
  · obtain ⟨b, w, he, _, hw⟩ := hB (x :: v) (by simp)
    simp only [List.cons.injEq] at he
    obtain ⟨rfl, rfl⟩ := he
    refine Or.inl ⟨hA, fun y hy => ?_, fun s hs => hB s (by simp [hs])⟩
    exact (List.mem_append.mp hy).elim (hr y) (hw y)
  · obtain ⟨b', w', he, _, hw'⟩ := hB (x :: v) (by simp)
    simp only [List.cons.injEq] at he
    obtain ⟨rfl, rfl⟩ := he
    refine Or.inr ⟨hA, ⟨b, w ++ v, rfl, hb, fun y hy => ?_⟩, fun s hs => hB s (by simp [hs])⟩
    exact (List.mem_append.mp hy).elim (hw y) (hw' y)

theorem break_starts_row {A B : List (List α)} {u v : List α} {x : α}
    (h : Layout brk (A ++ (u ++ x :: v) :: B)) (hx : brk x) : u = [] ∧ A ≠ [] := by
  rw [layout_middle] at h
  rcases h with ⟨_, hr, _⟩ | ⟨hA, ⟨b, w, he, _, hw⟩, _⟩
  · exact absurd hx (hr x (by simp))
  · refine ⟨?_, fun he => by simp [he, Layout] at hA⟩
    cases u with
    | nil => rfl
    | cons a u =>
      simp only [List.cons_append, List.cons.injEq] at he
      exact absurd hx (hw x (by simp [← he.2]))

/-- Row 0 starts the text, and each `brk` starts a new row. -/
def cut (brk : α → Bool) : List α → List (List α)
  | [] => [[]]
  | x :: l =>
    match cut brk l with
    | row :: rows => if brk x then [] :: (x :: row) :: rows else (x :: row) :: rows
    | [] => [[x]]

theorem cut_layout (brk : α → Bool) (l : List α) : Layout (fun x => brk x = true) (cut brk l) := by
  induction l with
  | nil => simp [cut, Layout]
  | cons x l ih =>
    rw [cut]
    cases hc : cut brk l with
    | nil => simp [hc, Layout] at ih
    | cons row rows =>
      obtain ⟨hrow, hrows⟩ := hc ▸ ih
      cases hx : brk x with
      | true =>
        refine ⟨by simp, fun r hr => ?_⟩
        rcases List.mem_cons.mp hr with rfl | hr
        · exact ⟨x, row, rfl, hx, hrow⟩
        · exact hrows r hr
      | false =>
        refine ⟨fun y hy => ?_, hrows⟩
        rcases List.mem_cons.mp hy with rfl | hy
        · simp [hx]
        · exact hrow y hy

theorem cut_flatten (brk : α → Bool) (l : List α) : (cut brk l).flatten = l := by
  induction l with
  | nil => rfl
  | cons x l ih =>
    rw [cut]
    cases hc : cut brk l with
    | nil => simpa [hc] using ih
    | cons row rows =>
      rw [hc] at ih
      cases hx : brk x <;> simpa using ih

/-- Rows that are laid out are the cut of their text. -/
theorem layout_cut {brk : α → Bool} {rows : List (List α)}
    (h : Layout (fun x => brk x = true) rows) : cut brk rows.flatten = rows :=
  layout_unique (cut_layout brk _) h (cut_flatten brk _)

end RowLayout
