import Mathlib.Data.List.Lex
import Mathlib.Data.List.Nodup
import Mathlib.Data.List.Perm.Basic
import Mathlib.Data.List.TakeWhile

/-! Document order of a rooted tree whose siblings are ordered: a node comes before
its descendants, and a subtree comes before the subtrees of later siblings.
Nodes are compared through their paths from the root. -/
namespace TreeOrder

variable {ι : Type*} {par par' : ι → Option ι} {root : ι} {sib : ι → ι → Prop}

/-- The nodes from `root`, left out, down to the node itself. -/
inductive PathTo (par : ι → Option ι) (root : ι) : ι → List ι → Prop where
  | root : PathTo par root root []
  | step {x y : ι} {p : List ι} : par x = some y → PathTo par root y p →
      PathTo par root x (p ++ [x])

def Before (par : ι → Option ι) (root : ι) (sib : ι → ι → Prop) (x y : ι) : Prop :=
  ∃ p q, PathTo par root x p ∧ PathTo par root y q ∧ List.Lex sib p q

/-- `e` is `s` or one of its descendants. -/
def Under (par : ι → Option ι) (root : ι) (s e : ι) : Prop :=
  ∃ p q, PathTo par root s p ∧ PathTo par root e q ∧ p <+: q

theorem path_nil {x : ι} (h : PathTo par root x []) : x = root := by
  generalize hp : ([] : List ι) = p at h
  cases h with
  | root => rfl
  | step _ _ => simp at hp

theorem path_snoc {x a : ι} {p : List ι} (h : PathTo par root x (p ++ [a])) :
    x = a ∧ ∃ y, par x = some y ∧ PathTo par root y p := by
  generalize hq : p ++ [a] = q at h
  cases h with
  | root => simp at hq
  | step hy hp =>
    obtain ⟨rfl, he⟩ := List.append_inj' hq rfl
    simp only [List.cons.injEq, and_true] at he
    exact ⟨he.symm, _, hy, hp⟩

theorem path_injective {x y : ι} {p : List ι} (hx : PathTo par root x p)
    (hy : PathTo par root y p) : x = y := by
  cases hx with
  | root => exact (path_nil hy).symm
  | step _ _ => exact (path_snoc hy).1.symm

theorem path_unique (hr : par root = none) {x : ι} {p q : List ι}
    (hp : PathTo par root x p) (hq : PathTo par root x q) : p = q := by
  induction hp generalizing q with
  | root =>
    cases hq with
    | root => rfl
    | step h _ => simp [hr] at h
  | step hx _ ih =>
    cases hq with
    | root => simp [hr] at hx
    | step hy hq =>
      rw [hx, Option.some.injEq] at hy
      subst hy
      rw [ih hq]

theorem path_extend (h : ∀ x y, par x = some y → par' x = some y) {x : ι} {p : List ι}
    (hp : PathTo par root x p) : PathTo par' root x p := by
  induction hp with
  | root => exact .root
  | step hx _ ih => exact .step (h _ _ hx) ih

theorem path_prefix {x : ι} {p q : List ι} (hp : PathTo par root x p) (hq : q <+: p) :
    ∃ y, PathTo par root y q := by
  induction hp with
  | root => exact ⟨root, by rw [List.prefix_nil.mp hq]; exact .root⟩
  | @step x y p hx hp ih =>
    rcases List.prefix_concat_iff.mp hq with rfl | hq
    · exact ⟨x, .step hx hp⟩
    · exact ih hq

theorem path_mem {x y : ι} {p : List ι} (hp : PathTo par root x p) (hy : y ∈ p) :
    ∃ q, PathTo par root y q ∧ q <+: p := by
  obtain ⟨u, v, rfl⟩ := List.append_of_mem hy
  have hpre : u ++ [y] <+: u ++ y :: v := ⟨v, by simp⟩
  obtain ⟨z, hz⟩ := path_prefix hp hpre
  exact ⟨u ++ [y], (path_snoc hz).1 ▸ hz, hpre⟩

theorem path_nodup (hr : par root = none) {x : ι} {p : List ι}
    (hp : PathTo par root x p) : p.Nodup := by
  induction hp with
  | root => exact List.nodup_nil
  | @step x y p hx hp ih =>
    refine List.nodup_append'.mpr ⟨ih, List.nodup_singleton x, ?_⟩
    intro z hz hzx
    rw [List.mem_singleton] at hzx
    subst hzx
    obtain ⟨q, hq, hpre⟩ := path_mem hp hz
    have hlen := hpre.length_le
    rw [path_unique hr hq (.step hx hp), List.length_append, List.length_singleton] at hlen
    omega

theorem root_not_mem_path (hr : par root = none) {x : ι} {p : List ι}
    (hp : PathTo par root x p) : root ∉ p := by
  intro hm
  obtain ⟨u, v, rfl⟩ := List.append_of_mem hm
  obtain ⟨z, hz⟩ := path_prefix (q := u ++ [root]) hp ⟨v, by simp⟩
  obtain ⟨rfl, y, hy, _⟩ := path_snoc hz
  simp [hr] at hy

theorem before_extend (h : ∀ x y, par x = some y → par' x = some y) {x y : ι}
    (hb : Before par root sib x y) : Before par' root sib x y := by
  obtain ⟨p, q, hp, hq, hl⟩ := hb
  exact ⟨p, q, path_extend h hp, path_extend h hq, hl⟩

section Order

variable (hr : par root = none)
include hr

theorem before_irrefl [Std.Irrefl sib] (x : ι) : ¬ Before par root sib x x := by
  rintro ⟨p, q, hp, hq, hl⟩
  rw [path_unique hr hp hq] at hl
  exact List.lex_irrefl (fun a => Std.Irrefl.irrefl a) q hl

theorem before_trans [IsTrans ι sib] {x y z : ι} (h : Before par root sib x y)
    (k : Before par root sib y z) : Before par root sib x z := by
  obtain ⟨p, q, hp, hq, hl⟩ := h
  obtain ⟨q', s, hq', hs, hm⟩ := k
  rw [path_unique hr hq' hq] at hm
  exact ⟨p, s, hp, hs, List.lex_trans (fun h k => IsTrans.trans _ _ _ h k) hl hm⟩

theorem before_asymm [Std.Asymm sib] {x y : ι} (h : Before par root sib x y) :
    ¬ Before par root sib y x := by
  rintro ⟨q', p', hq', hp', hm⟩
  obtain ⟨p, q, hp, hq, hl⟩ := h
  rw [path_unique hr hq' hq, path_unique hr hp' hp] at hm
  exact asymm_of (List.Lex sib) hl hm

omit hr in
theorem before_trichotomy [Std.Trichotomous sib] {x y : ι} {p q : List ι}
    (hp : PathTo par root x p) (hq : PathTo par root y q) (hne : x ≠ y) :
    Before par root sib x y ∨ Before par root sib y x := by
  rcases trichotomous_of (List.Lex sib) p q with h | rfl | h
  · exact Or.inl ⟨p, q, hp, hq, h⟩
  · exact absurd (path_injective hp hq) hne
  · exact Or.inr ⟨q, p, hq, hp, h⟩

omit hr in
theorem parent_before {x y : ι} {p : List ι} (hx : par x = some y)
    (hp : PathTo par root y p) : Before par root sib y x :=
  ⟨p, p ++ [x], hp, .step hx hp, by
    simpa using List.Lex.append_left sib (List.Lex.nil (a := x) (l := [])) p⟩

/-- Between a node and its child in document order stand only subtrees of
siblings that precede the child. -/
theorem between_parent_child [Std.Asymm sib] {x y e : ι} (hx : par x = some y)
    (hye : Before par root sib y e) (hex : Before par root sib e x) :
    ∃ s, par s = some y ∧ sib s x ∧ Under par root s e := by
  obtain ⟨p, q, hp, hq, hl⟩ := hye
  obtain ⟨q', px, hq', hpx, hm⟩ := hex
  rw [path_unique hr hq' hq, path_unique hr hpx (.step hx hp)] at hm
  have hpre : ∀ p q : List ι, List.Lex sib p q → List.Lex sib q (p ++ [x]) →
      ∃ a t, q = p ++ a :: t ∧ sib a x := by
    intro p
    induction p with
    | nil =>
      intro q hl hm
      cases hl with
      | nil =>
        rw [List.nil_append, List.cons_lex_cons_iff] at hm
        rcases hm with h | ⟨_, h⟩
        · exact ⟨_, _, rfl, h⟩
        · exact absurd h List.not_lex_nil
    | cons b p ih =>
      intro q hl hm
      cases hl with
      | cons hl =>
        rw [List.cons_append, List.cons_lex_cons_iff] at hm
        rcases hm with h | ⟨_, hm⟩
        · exact absurd h (asymm_of sib h)
        · obtain ⟨a, t, rfl, ha⟩ := ih _ hl hm
          exact ⟨a, t, rfl, ha⟩
      | rel h =>
        rw [List.cons_append, List.cons_lex_cons_iff] at hm
        rcases hm with h' | ⟨rfl, _⟩
        · exact absurd h' (asymm_of sib h)
        · exact absurd h (asymm_of sib h)
  obtain ⟨a, t, rfl, ha⟩ := hpre p q hl hm
  have hat : p ++ [a] <+: p ++ a :: t := ⟨t, by simp⟩
  obtain ⟨s, hs⟩ := path_prefix hq hat
  obtain ⟨rfl, z, hz, hzp⟩ := path_snoc hs
  rw [path_injective hzp hp] at hz
  exact ⟨s, hz, ha, p ++ [s], _, hs, hq, hat⟩

theorem sibling_before_iff [Std.Irrefl sib] {x y e : ι} {p : List ι} (hp : PathTo par root y p)
    (hx : par x = some y) (he : par e = some y) :
    Before par root sib e x ↔ sib e x := by
  constructor
  · rintro ⟨q, px, hq, hpx, hl⟩
    rw [path_unique hr hq (.step he hp), path_unique hr hpx (.step hx hp)] at hl
    have hdrop : ∀ p : List ι, List.Lex sib (p ++ [e]) (p ++ [x]) → sib e x := by
      intro p
      induction p with
      | nil => exact (List.lex_singleton_iff e x).mp
      | cons a p ih => exact fun h => ih (List.lex_cons_iff.mp h)
    exact hdrop p hl
  · intro h
    exact ⟨_, _, .step he hp, .step hx hp, List.Lex.append_left sib (List.Lex.rel h) p⟩

end Order

theorem document_nodup [Std.Irrefl sib] (hr : par root = none) {l : List ι}
    (hl : l.Pairwise (Before par root sib)) : l.Nodup := by
  refine List.Pairwise.imp ?_ hl
  rintro a _ hb rfl
  exact before_irrefl hr a hb

/-- A document is determined by its nodes. -/
theorem document_unique [Std.Irrefl sib] [Std.Asymm sib] (hr : par root = none)
    {l m : List ι} (hl : l.Pairwise (Before par root sib)) (hm : m.Pairwise (Before par root sib))
    (h : ∀ x, x ∈ l ↔ x ∈ m) : l = m := by
  have hp : l.Perm m :=
    (List.perm_ext_iff_of_nodup (document_nodup hr hl) (document_nodup hr hm)).mpr h
  exact hp.eq_of_pairwise (fun _ _ _ _ h k => absurd k (before_asymm hr h)) hl hm

theorem insert_document {pre post : List ι} {x : ι}
    (h : (pre ++ post).Pairwise (Before par root sib))
    (hpre : ∀ e ∈ pre, Before par root sib e x) (hpost : ∀ e ∈ post, Before par root sib x e) :
    (pre ++ x :: post).Pairwise (Before par root sib) := by
  obtain ⟨h₁, h₂, h₃⟩ := List.pairwise_append.mp h
  refine List.pairwise_append.mpr ⟨h₁, List.pairwise_cons.mpr ⟨hpost, h₂⟩, ?_⟩
  intro a ha b hb
  rcases List.mem_cons.mp hb with rfl | hb
  · exact hpre a ha
  · exact h₃ a ha b hb

/-- Skipping earlier siblings stops exactly where `x` belongs, as soon as nothing
but children of `y` stands between `y` and `x`. -/
theorem skip_siblings [Std.Irrefl sib] [IsTrans ι sib] [Std.Trichotomous sib]
    (hr : par root = none)
    {x y : ι} {p : List ι} (hp : PathTo par root y p) (hx : par x = some y) {post : List ι}
    (hsort : post.Pairwise (Before par root sib))
    (hpath : ∀ e ∈ post, ∃ q, PathTo par root e q) (hnew : x ∉ post)
    (hclear : ∀ e ∈ post, Before par root sib e x → par e = some y)
    (skip : ι → Bool) (hskip : ∀ e ∈ post, skip e = true ↔ par e = some y ∧ sib e x) :
    (∀ e ∈ post.takeWhile skip, Before par root sib e x) ∧
    (∀ e ∈ post.dropWhile skip, Before par root sib x e) := by
  constructor
  · intro e he
    have hm : e ∈ post := (List.takeWhile_prefix skip).subset he
    obtain ⟨hpe, hse⟩ := (hskip e hm).mp (List.mem_takeWhile_imp he)
    exact (sibling_before_iff hr hp hx hpe).mpr hse
  · intro e he
    have hm : e ∈ post := (List.dropWhile_suffix skip).subset he
    have hnot : ¬ Before par root sib e x := by
      intro hb
      cases hd : post.dropWhile skip with
      | nil => simp [hd] at he
      | cons d rest =>
        have hdm : d ∈ post := (List.dropWhile_suffix skip).subset (by simp [hd])
        have hdx : Before par root sib d x := by
          rw [hd] at he
          rcases List.mem_cons.mp he with rfl | he
          · exact hb
          · have hs := hsort.sublist (List.dropWhile_sublist skip)
            rw [hd] at hs
            exact before_trans hr ((List.pairwise_cons.mp hs).1 e he) hb
        have hsk : skip d = true := (hskip d hdm).mpr
          ⟨hclear d hdm hdx, (sibling_before_iff hr hp hx (hclear d hdm hdx)).mp hdx⟩
        have hns := List.head_dropWhile_not skip (by simp [hd] : post.dropWhile skip ≠ [])
        simp [hd, hsk] at hns
    obtain ⟨q, hq⟩ := hpath e hm
    have hne : e ≠ x := fun h => hnew (h ▸ hm)
    exact (before_trichotomy hq (.step hx hp) hne).resolve_left hnot

end TreeOrder
