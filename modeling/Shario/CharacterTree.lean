import Shario.FileSearch
import Shario.TreeOrder

/-! The character map as a tree: every parent pointer leads to the root, and the
two updates of the source, a new leaf and a deletion mark, keep it so. -/
namespace CharacterTree

open CrdtTypes FileTree FileSearch TreeOrder

variable {m : Characters} {x y : Identity} {rel : CrdtRelation}

def Live (m : Characters) (x : Identity) : Prop := ∃ rel, m.lookup x = some rel ∧ rel.deleted = false
def Tomb (m : Characters) (x : Identity) : Prop := ∃ rel, m.lookup x = some rel ∧ rel.deleted = true
def Breaks (m : Characters) (x : Identity) : Prop :=
  ∃ rel, m.lookup x = some rel ∧ isLineBreak rel.value = true

/-- The parent pointer; the root's pointer to itself is left out. -/
def parentOf (m : Characters) (x : Identity) : Option Identity :=
  if x = root then none else (m.lookup x).map CrdtRelation.parent

def rootRelation : CrdtRelation := .new (Char.ofNat 0) 0 0

structure Rooted (m : Characters) : Prop where
  root_entry : m.lookup root = some rootRelation
  climbs : ∀ x ∈ m, ∃ p, PathTo (parentOf m) root x p

@[simp] theorem parentOf_root (m : Characters) : parentOf m root = none := by simp [parentOf]

theorem parentOf_eq_some : parentOf m x = some y ↔
    x ≠ root ∧ ∃ rel, m.lookup x = some rel ∧ rel.parent = y := by
  by_cases h : x = root <;> simp [parentOf, h]

theorem parentOf_of_lookup (hx : x ≠ root) (h : m.lookup x = some rel) :
    parentOf m x = some rel.parent := parentOf_eq_some.mpr ⟨hx, rel, h, rfl⟩

theorem mem_of_parentOf (h : parentOf m x = some y) : x ∈ m := by
  obtain ⟨_, rel, hr, _⟩ := parentOf_eq_some.mp h
  exact Finmap.mem_iff.mpr ⟨rel, hr⟩

theorem Live.mem (h : Live m x) : x ∈ m := by
  obtain ⟨rel, hr, _⟩ := h
  exact Finmap.mem_iff.mpr ⟨rel, hr⟩

theorem Tomb.mem (h : Tomb m x) : x ∈ m := by
  obtain ⟨rel, hr, _⟩ := h
  exact Finmap.mem_iff.mpr ⟨rel, hr⟩

theorem live_or_tomb (h : x ∈ m) : Live m x ∨ Tomb m x := by
  obtain ⟨rel, hr⟩ := Finmap.mem_iff.mp h
  cases hd : rel.deleted with
  | false => exact Or.inl ⟨rel, hr, hd⟩
  | true => exact Or.inr ⟨rel, hr, hd⟩

theorem Tomb.not_live (h : Tomb m x) : ¬ Live m x := by
  rintro ⟨rel', hr', hd'⟩
  obtain ⟨rel, hr, hd⟩ := h
  rw [hr, Option.some.injEq] at hr'
  simp [← hr', hd] at hd'

theorem live_iff (h : m.lookup x = some rel) : Live m x ↔ rel.deleted = false := by
  simp [Live, h]

theorem tomb_iff (h : m.lookup x = some rel) : Tomb m x ↔ rel.deleted = true := by
  simp [Tomb, h]

theorem breaks_iff (h : m.lookup x = some rel) : Breaks m x ↔ isLineBreak rel.value = true := by
  simp [Breaks, h]

namespace Rooted

theorem root_live (h : Rooted m) : Live m root := ⟨_, h.root_entry, rfl⟩

theorem root_mem (h : Rooted m) : root ∈ m := h.root_live.mem

theorem root_not_breaks (h : Rooted m) : ¬ Breaks m root := by
  rw [breaks_iff h.root_entry]
  decide

theorem tomb_ne_root (h : Rooted m) (hx : Tomb m x) : x ≠ root := by
  rintro rfl
  exact hx.not_live h.root_live

theorem mem_of_path (h : Rooted m) {p : List Identity} (hp : PathTo (parentOf m) root x p) :
    x ∈ m := by
  cases hp with
  | root => exact h.root_mem
  | step hx _ => exact mem_of_parentOf hx

theorem parent_mem (h : Rooted m) (hx : m.lookup x = some rel) : rel.parent ∈ m := by
  by_cases hr : x = root
  · subst hr
    rw [h.root_entry, Option.some.injEq] at hx
    subst hx
    exact h.root_mem
  · obtain ⟨p, hp⟩ := h.climbs x (Finmap.mem_iff.mpr ⟨rel, hx⟩)
    cases hp with
    | root => exact absurd rfl hr
    | step hy hp =>
      rw [parentOf_of_lookup hr hx, Option.some.injEq] at hy
      exact hy ▸ h.mem_of_path hp

theorem path_length (h : Rooted m) {p : List Identity} (hp : PathTo (parentOf m) root x p) :
    p.length < m.keys.card := by
  have hnd : (root :: p).Nodup :=
    List.nodup_cons.mpr ⟨root_not_mem_path (parentOf_root m) hp, path_nodup (parentOf_root m) hp⟩
  have hsub : (root :: p).toFinset ⊆ m.keys := by
    intro y hy
    rw [List.mem_toFinset, List.mem_cons] at hy
    rw [Finmap.mem_keys]
    rcases hy with rfl | hy
    · exact h.root_mem
    · obtain ⟨q, hq, _⟩ := path_mem hp hy
      exact h.mem_of_path hq
  have hcard := Finset.card_le_card hsub
  rw [List.toFinset_card_of_nodup hnd, List.length_cons] at hcard
  omega

end Rooted

section Insert

variable {c : Identity}

theorem parentOf_insert (hx : c ∉ m) (h : parentOf m x = some y) :
    parentOf (m.insert c rel) x = some y := by
  have hne : x ≠ c := fun he => hx (he ▸ mem_of_parentOf h)
  obtain ⟨hr, r, hl, hp⟩ := parentOf_eq_some.mp h
  exact parentOf_eq_some.mpr ⟨hr, r, by rw [Finmap.lookup_insert_of_ne _ hne]; exact hl, hp⟩

theorem parentOf_insert_self (hc : c ≠ root) :
    parentOf (m.insert c rel) c = some rel.parent :=
  parentOf_of_lookup hc (Finmap.lookup_insert _)

theorem parentOf_insert_ne (hne : x ≠ c) : parentOf (m.insert c rel) x = parentOf m x := by
  simp [parentOf, Finmap.lookup_insert_of_ne _ hne]

theorem Rooted.insert (h : Rooted m) (hx : c ∉ m) (hp : rel.parent ∈ m) :
    Rooted (m.insert c rel) := by
  have hne : root ≠ c := fun he => hx (he ▸ h.root_mem)
  refine ⟨by rw [Finmap.lookup_insert_of_ne _ hne]; exact h.root_entry, fun y hy => ?_⟩
  have hext : ∀ a b, parentOf m a = some b → parentOf (m.insert c rel) a = some b :=
    fun _ _ => parentOf_insert hx
  rcases Finmap.mem_insert.mp hy with rfl | hy
  · obtain ⟨p, hp⟩ := h.climbs _ hp
    exact ⟨_, .step (parentOf_insert_self hne.symm) (path_extend hext hp)⟩
  · obtain ⟨p, hp⟩ := h.climbs y hy
    exact ⟨p, path_extend hext hp⟩

theorem live_insert_ne (hne : x ≠ c) : Live (m.insert c rel) x ↔ Live m x := by
  simp [Live, Finmap.lookup_insert_of_ne _ hne]

theorem tomb_insert_ne (hne : x ≠ c) : Tomb (m.insert c rel) x ↔ Tomb m x := by
  simp [Tomb, Finmap.lookup_insert_of_ne _ hne]

theorem breaks_insert_ne (hne : x ≠ c) : Breaks (m.insert c rel) x ↔ Breaks m x := by
  simp [Breaks, Finmap.lookup_insert_of_ne _ hne]

theorem live_insert_self : Live (m.insert c rel) c ↔ rel.deleted = false :=
  live_iff (Finmap.lookup_insert _)

theorem breaks_insert_self : Breaks (m.insert c rel) c ↔ isLineBreak rel.value = true :=
  breaks_iff (Finmap.lookup_insert _)

theorem skips_insert {e parent z : Identity} (hne : e ≠ c) :
    skips (m.insert c rel) parent z e = skips m parent z e := by
  simp [skips, Finmap.lookup_insert_of_ne _ hne]

end Insert

def mark (m : Characters) (x : Identity) (rel : CrdtRelation) : Characters :=
  m.insert x { rel with deleted := true }

section Mark

variable (hx : m.lookup x = some rel)
include hx

theorem mem_mark : y ∈ mark m x rel ↔ y ∈ m := by
  rw [mark, Finmap.mem_insert]
  refine ⟨fun h => h.elim (fun he => he ▸ Finmap.mem_iff.mpr ⟨rel, hx⟩) id, Or.inr⟩

theorem parentOf_mark : parentOf (mark m x rel) = parentOf m := by
  funext y
  by_cases hy : y = x
  · subst hy
    simp [parentOf, mark, hx, CrdtRelation.parent]
  · simp [parentOf, mark, Finmap.lookup_insert_of_ne _ hy]

theorem Rooted.mark (h : Rooted m) (hr : x ≠ root) : Rooted (mark m x rel) := by
  refine ⟨?_, fun y hy => ?_⟩
  · rw [CharacterTree.mark, Finmap.lookup_insert_of_ne _ hr.symm]
    exact h.root_entry
  · rw [parentOf_mark hx]
    exact h.climbs y ((mem_mark hx).mp hy)

theorem breaks_mark : Breaks (CharacterTree.mark m x rel) y ↔ Breaks m y := by
  by_cases hy : y = x
  · subst hy
    rw [breaks_iff hx, CharacterTree.mark]
    exact breaks_insert_self
  · exact breaks_insert_ne hy

omit hx in
theorem live_mark : Live (CharacterTree.mark m x rel) y ↔ Live m y ∧ y ≠ x := by
  by_cases hy : y = x
  · subst hy
    simp [CharacterTree.mark, Live]
  · simp [CharacterTree.mark, live_insert_ne hy, hy]

end Mark

end CharacterTree
