import Mathlib.Data.List.TakeWhile
import Mathlib.Data.List.Perm.Basic
import Mathlib.Order.Defs.Unbundled

/-! Insertion by a scan: a new element goes behind the elements of its kind that rank
before it, as far as these stand together. -/
namespace ScanInsert

variable {α : Type*} (r : α → α → Prop) [DecidableRel r] (kind : α → Bool)

/-- What the scan for `x` passes. -/
def passes (x e : α) : Bool := kind e && decide (r e x)

def scanInsert (x : α) (l : List α) : List α :=
  l.takeWhile (passes r kind x) ++ x :: l.dropWhile (passes r kind x)

def scanAll (xs l : List α) : List α := xs.foldl (fun l x => scanInsert r kind x l) l

/-- Each of the elements `new` stands behind elements of its kind only, that rank before it. -/
def Settled (new : α → Prop) (l : List α) : Prop :=
  l.Pairwise fun d e => new e → passes r kind e d = true

variable {r kind} {x y e : α} {l xs ys : List α}

theorem scanInsert_cons : scanInsert r kind x (e :: l) =
    if passes r kind x e then e :: scanInsert r kind x l else x :: e :: l := by
  cases h : passes r kind x e with
  | true => simp [scanInsert, h]
  | false => simp [scanInsert, h]

theorem scanInsert_perm (x : α) (l : List α) : (scanInsert r kind x l).Perm (x :: l) := by
  have h : (l.takeWhile (passes r kind x) ++ x :: l.dropWhile (passes r kind x)).Perm
      (x :: (l.takeWhile (passes r kind x) ++ l.dropWhile (passes r kind x))) := List.perm_middle
  rwa [List.takeWhile_append_dropWhile] at h

theorem mem_scanInsert : e ∈ scanInsert r kind x l ↔ e = x ∨ e ∈ l := by
  rw [(scanInsert_perm x l).mem_iff, List.mem_cons]

theorem filter_scanInsert {p : α → Bool} (hx : p x = false) :
    (scanInsert r kind x l).filter p = l.filter p := by
  have hl := List.takeWhile_append_dropWhile (p := passes r kind x) (l := l)
  have hxl : (x :: l.dropWhile (passes r kind x)).filter p =
      (l.dropWhile (passes r kind x)).filter p := List.filter_cons_of_neg (by simp [hx])
  rw [scanInsert, List.filter_append, hxl, ← List.filter_append, hl]

theorem mem_scanAll : e ∈ scanAll r kind xs l ↔ e ∈ xs ∨ e ∈ l := by
  induction xs generalizing l with
  | nil => simp [scanAll]
  | cons x xs ih =>
    have hcons : scanAll r kind (x :: xs) l = scanAll r kind xs (scanInsert r kind x l) := rfl
    rw [hcons, ih, mem_scanInsert, List.mem_cons]
    exact or_left_comm.trans or_assoc.symm

theorem filter_scanAll {p : α → Bool} (h : ∀ x ∈ xs, p x = false) :
    (scanAll r kind xs l).filter p = l.filter p := by
  induction xs generalizing l with
  | nil => rfl
  | cons x xs ih =>
    have hcons : scanAll r kind (x :: xs) l = scanAll r kind xs (scanInsert r kind x l) := rfl
    rw [hcons, ih fun y hy => h y (List.mem_cons_of_mem _ hy),
      filter_scanInsert (h x List.mem_cons_self)]

section Ranked

variable [Std.Trichotomous r]

theorem outranks (hx : kind x = true) (hne : e ≠ x) (he : passes r kind e x = false) : r e x := by
  have hn : ¬ r x e := by simpa [passes, hx] using he
  rcases trichotomous_of r e x with h | h | h
  · exact h
  · exact absurd h hne
  · exact absurd h hn

theorem passes_other [Std.Asymm r] (hx : kind x = true) (hy : kind y = true) (hne : x ≠ y) :
    passes r kind y x = !passes r kind x y := by
  rcases trichotomous_of r x y with h | h | h
  · have hn : ¬ r y x := asymm_of r h
    simp [passes, hx, hy, h, hn]
  · exact absurd h hne
  · have hn : ¬ r x y := asymm_of r h
    simp [passes, hx, hy, h, hn]

theorem passes_through [IsTrans α r] (hx : kind x = true) (hye : passes r kind y e = true)
    (hxe : passes r kind x e = false) : passes r kind y x = true := by
  obtain ⟨he, hey⟩ : kind e = true ∧ r e y := by simpa [passes] using hye
  by_cases hne : x = e
  · simp [passes, hne, he, hey]
  · have hxy : r x y := trans_of r (outranks he hne hxe) hey
    simp [passes, hx, hxy]

variable [IsTrans α r]

/-- The two scans give the same list in either order. -/
theorem scanInsert_comm [Std.Asymm r] (hx : kind x = true) (hy : kind y = true) (l : List α) :
    scanInsert r kind y (scanInsert r kind x l) = scanInsert r kind x (scanInsert r kind y l) := by
  by_cases hne : x = y
  · rw [hne]
  have hother := passes_other (r := r) hx hy hne
  induction l with
  | nil =>
    have hnil : ∀ z, scanInsert r kind z [] = [z] := fun _ => rfl
    cases h : passes r kind x y <;> simp [hnil, scanInsert_cons, hother, h]
  | cons e l ih =>
    cases hxe : passes r kind x e with
    | true =>
      cases hye : passes r kind y e with
      | true => simp [scanInsert_cons, hxe, hye, ih]
      | false =>
        have hxy := passes_through hy hxe hye
        simp [scanInsert_cons, hxe, hye, hxy]
    | false =>
      cases hye : passes r kind y e with
      | true =>
        have hyx := passes_through hx hye hxe
        simp [scanInsert_cons, hxe, hye, hyx]
      | false => cases h : passes r kind x y <;> simp [scanInsert_cons, hxe, hye, hother, h]

theorem scanAll_perm [Std.Asymm r] (h : xs.Perm ys) (hk : ∀ x ∈ xs, kind x = true) (l : List α) :
    scanAll r kind xs l = scanAll r kind ys l :=
  h.foldl_eq' (fun x hx y hy l => scanInsert_comm (hk x hx) (hk y hy) l) l

theorem settled_scanInsert {new : α → Prop} (hl : Settled r kind new l)
    (hx : kind x = true) (hxl : x ∉ l) (hnew : ∀ e, new e → kind e = true) :
    Settled r kind (fun e => new e ∨ e = x) (scanInsert r kind x l) := by
  induction l with
  | nil => exact List.pairwise_singleton _ _
  | cons d l ih =>
    obtain ⟨hd, hl⟩ := List.pairwise_cons.mp hl
    rw [List.mem_cons, not_or] at hxl
    rw [scanInsert_cons]
    cases hp : passes r kind x d with
    | true =>
      rw [if_pos rfl]
      refine List.pairwise_cons.mpr ⟨fun e he hn => ?_, ih hl hxl.2⟩
      rcases mem_scanInsert.mp he with rfl | hel
      · exact hp
      · exact hd e hel (hn.resolve_right fun hex => hxl.2 (hex ▸ hel))
    | false =>
      rw [if_neg (by simp)]
      have hold : ∀ e ∈ d :: l, new e ∨ e = x → new e := by
        intro e he hn
        apply hn.resolve_right
        rintro rfl
        exact (List.mem_cons.mp he).elim hxl.1 hxl.2
      refine List.pairwise_cons.mpr ⟨fun e he hn => ?_, ?_⟩
      · have hne := hold e he hn
        rcases List.mem_cons.mp he with rfl | hel
        · have hxe : r x e := outranks (hnew e hne) hxl.1 hp
          simp [passes, hx, hxe]
        · exact passes_through hx (hd e hel hne) hp
      · refine List.Pairwise.imp_of_mem ?_ (List.pairwise_cons.mpr ⟨hd, hl⟩)
        intro a b _ hb hab hn
        exact hab (hold b hb hn)

theorem settled_scanAll {new : α → Prop} (hl : Settled r kind new l)
    (hnew : ∀ e, new e → kind e = true) (hk : ∀ x ∈ xs, kind x = true) (hn : xs.Nodup)
    (hd : ∀ x ∈ xs, x ∉ l) : Settled r kind (fun e => new e ∨ e ∈ xs) (scanAll r kind xs l) := by
  induction xs generalizing new l with
  | nil => simpa [scanAll] using hl
  | cons x xs ih =>
    obtain ⟨hx, hn⟩ := List.nodup_cons.mp hn
    have hkx := hk x List.mem_cons_self
    have hstep := settled_scanInsert hl hkx (hd x List.mem_cons_self) hnew
    have hrest := ih hstep (fun e he => he.elim (hnew e) fun h => h ▸ hkx)
      (fun y hy => hk y (List.mem_cons_of_mem _ hy)) hn fun y hy hin => ?_
    · have hcons : scanAll r kind (x :: xs) l = scanAll r kind xs (scanInsert r kind x l) := rfl
      rw [hcons]
      exact hrest.imp fun h he => h (by simpa [or_assoc] using he)
    · rcases mem_scanInsert.mp hin with rfl | hin
      · exact hx hy
      · exact hd y (List.mem_cons_of_mem _ hy) hin

/-- The new elements stand in the order of their ranks. -/
theorem scanAll_ranked {p : α → Bool} (hp : ∀ e, p e = true → e ∈ xs)
    (hk : ∀ x ∈ xs, kind x = true) (hn : xs.Nodup) (hd : ∀ x ∈ xs, x ∉ l) :
    ((scanAll r kind xs l).filter p).Pairwise r := by
  have hnone : Settled r kind (fun _ => False) l :=
    List.pairwise_iff_forall_sublist.mpr fun _ h => h.elim
  have hs := settled_scanAll hnone (fun _ h => h.elim) hk hn hd
  refine (hs.filter p).imp_of_mem fun _ he h => ?_
  have hpass := h (Or.inr (hp _ (List.mem_filter.mp he).2))
  rw [passes, Bool.and_eq_true, decide_eq_true_eq] at hpass
  exact hpass.2

end Ranked

end ScanInsert
