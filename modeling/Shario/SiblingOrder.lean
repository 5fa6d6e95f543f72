import Shario.SinglePlace
import Shario.ScanInsert

/-! New characters under one parent: whatever the order in which they are added, they end
up in the order of their ranks. -/
namespace SiblingOrder

open CrdtTypes RowLayout FileTree FileSearch TreeOrder CharacterTree FilePlacement GuardedRuns
  FileSafety HintFreedom SinglePlace ScanInsert

inductive OutcomeKind where
  | placed
  | ignored
  | failed
  deriving DecidableEq, Repr

def outcomeKind : Outcome → OutcomeKind
  | .ok (some _) => .placed
  | .ok none => .ignored
  | .error _ => .failed

/-- The adds one after another, each with its own hint. -/
def applyAll : SharFile → List (ℕ × CRDT) → Option (List Outcome × SharFile)
  | f, [] => some ([], f)
  | f, (hint, c) :: calls => do
    let (o, f) ← f.addCrdt hint c
    let (os, f) ← applyAll f calls
    some (o :: os, f)

/-- One outcome for each call, all of the kind `k`. -/
def AllOfKind (k : OutcomeKind) (calls : List (ℕ × CRDT)) (os : List Outcome) : Prop :=
  os.map outcomeKind = List.replicate calls.length k

structure NewSiblings (f : SharFile) (P : Identity) (cs : List CRDT) : Prop where
  parent : ∀ c ∈ cs, c.relation.parent = P
  fresh : ∀ c ∈ cs, c.identity ∉ f.characters
  ordinary : ∀ c ∈ cs, isLineBreak c.relation.value = false
  distinct : (cs.map CRDT.identity).Nodup

/-- One row took the new identities, in the order of their ranks, and lost nothing. -/
def SortedInto (f g : SharFile) (ids : List Identity) : Prop :=
  ∃ A row row' B, f.projection = A ++ row :: B ∧ g.projection = A ++ row' :: B ∧
    (∀ x ∈ ids, x ∈ row') ∧ (row'.filter (· ∈ ids)).Pairwise sibling ∧
    row'.filter (· ∉ ids) = row

def childOf (m : Characters) (P e : Identity) : Bool :=
  (m.lookup e).map CrdtRelation.parent == some P

theorem skips_eq (m : Characters) (P x : Identity) :
    skips m P x = passes sibling (childOf m P) x := rfl

section Places

variable {f g : SharFile} {c : CRDT} {x : Identity} {A B : List (List Identity)}
  {pre post post' : List Identity}

theorem scan_again {y : Identity} {u l : List Identity}
    (hl : ∀ e ∈ l, e ∈ f.characters) (hc : c.identity ∉ f.characters)
    (hy : c.relation.parent ≠ y) (hu : u = l.takeWhile (skips f.characters y x))
    (hhead : post'.head? = (l.dropWhile (skips f.characters y x)).head? ∨
      post'.head? = some c.identity) :
    (u ++ post').takeWhile (skips (f.characters.insert c.identity c.relation) y x) = u ∧
    (u ++ post').dropWhile (skips (f.characters.insert c.identity c.relation) y x) = post' := by
  subst hu
  have hold : ∀ e ∈ l, skips (f.characters.insert c.identity c.relation) y x e =
      skips f.characters y x e := by
    intro e he
    apply skips_insert
    rintro rfl
    exact hc (hl _ he)
  refine scan_stops (fun e he => ?_) fun e he => ?_
  · rw [hold e ((List.takeWhile_prefix _).subset he)]
    exact List.mem_takeWhile_imp he
  · rcases hhead with hhead | hhead
    · rw [hhead] at he
      have hmem := List.mem_of_mem_head? he
      rw [hold e ((List.dropWhile_suffix _).subset hmem)]
      have hstop := List.head?_dropWhile_not (skips f.characters y x) l
      rw [Option.mem_def.mp he] at hstop
      exact hstop
    · rw [hhead, Option.mem_some_iff] at he
      subst he
      simp [skips, hy]

theorem slot_extended (hf : Sound f) (hs : Slot f x A pre post B) (hc : c.identity ∉ f.characters)
    (ht : Tomb f.characters c.relation.parent)
    (hg : g.characters = f.characters.insert c.identity c.relation) {p q : List Identity}
    (hx : PathTo (parentOf f.characters) root x p)
    (hP : PathTo (parentOf f.characters) root c.relation.parent q) (hlen : p.length ≤ q.length)
    (hhead : post'.head? = post.head? ∨ post'.head? = some c.identity)
    (hrows : g.projection = A ++ (pre ++ post') :: B) : Slot g x A pre post' B := by
  induction hs generalizing p post' with
  | @root x line B hxr hrows₀ =>
    obtain ⟨hu, hv⟩ := scan_again (x := x) (fun e he => mem_row_known hf (A := []) hrows₀ he) hc
      (hf.rooted.tomb_ne_root ht) rfl hhead
    have hslot : Slot g x [] _ _ B := .root (by rw [hg]; exact parentOf_insert hc hxr) hrows
    rw [hg, hu, hv] at hslot
    exact hslot
  | @live x a A u v B hxa hne hl hrows₀ =>
    have hpa : c.relation.parent ≠ a := fun he => (he ▸ ht).not_live hl
    obtain ⟨hu, hv⟩ := scan_again (x := x)
      (fun e he => mem_row_known hf hrows₀ (by simp [he])) hc hpa rfl hhead
    have hac : a ≠ c.identity := fun he => hc (he ▸ hl.mem)
    rw [List.append_assoc, List.cons_append] at hrows
    have hslot : Slot g x A (u ++ a :: _) _ B := .live (by rw [hg]; exact parentOf_insert hc hxa) hne
      (by rw [hg]; exact (live_insert_ne hac).mpr hl) hrows
    rw [hg, hu, hv] at hslot
    exact hslot
  | @tomb x y A pre post B hxy hty hs ih =>
    cases hx with
    | root => exact absurd hxy (by simp)
    | @step _ y' p hxy' hy =>
      rw [hxy, Option.some.injEq] at hxy'
      subst hxy'
      rw [List.length_append, List.length_singleton] at hlen
      have hpy : c.relation.parent ≠ y := by
        intro he
        rw [he] at hP
        rw [path_unique (parentOf_root _) hP hy] at hlen
        omega
      have hpost : ∀ e ∈ post, e ∈ f.characters :=
        fun e he => mem_row_known hf hs.rows (by simp [he])
      obtain ⟨hu, hv⟩ := scan_again (x := x) hpost hc hpy rfl hhead
      have hyc : y ≠ c.identity := fun he => hc (he ▸ hty.mem)
      rw [List.append_assoc] at hrows
      have hup := ih hy (by omega) ?_ hrows
      · have hslot := Slot.tomb (by rw [hg]; exact parentOf_insert hc hxy)
          (by rw [hg]; exact (tomb_insert_ne hyc).mpr hty) hup
        rw [hg, hu, hv] at hslot
        exact hslot
      · -- the slot above ends where the row goes on, or at the new character
        cases htw : post.takeWhile (skips f.characters y x) with
        | nil =>
          have hdw := List.takeWhile_append_dropWhile (p := skips f.characters y x) (l := post)
          rw [htw, List.nil_append] at hdw
          rw [hdw] at hhead
          exact hhead
        | cons d tw =>
          have hdw := List.takeWhile_append_dropWhile (p := skips f.characters y x) (l := post)
          rw [htw] at hdw
          rw [← hdw]
          exact Or.inl rfl

theorem place_landed (hf : Sound f) (hplace : Place f c.relation.parent A pre post B)
    (hpre : c.relation.parent = root → pre ≠ []) (hc : c.identity ∉ f.characters)
    (hhead : post'.head? = post.head? ∨ post'.head? = some c.identity) :
    Place (landed f c (A ++ (pre ++ post') :: B)) c.relation.parent A pre post' B := by
  generalize hP : c.relation.parent = P at hplace hpre
  cases hplace with
  | @root line _ hrows =>
    obtain ⟨e, line, rfl⟩ : ∃ e l, line = e :: l := by
      cases line with
      | nil => exact absurd rfl (hpre rfl)
      | cons e line => exact ⟨e, line, rfl⟩
    exact Place.root (f := landed f c (([e] ++ post') :: B)) rfl
  | live hne hl hrows =>
    have hPc : P ≠ c.identity := fun he => hc (he ▸ hl.mem)
    refine .live hne ((live_insert_ne hPc).mpr hl) ?_
    simp [landed]
  | tomb ht hs =>
    have hPc : P ≠ c.identity := fun he => hc (he ▸ ht.mem)
    subst hP
    obtain ⟨p, hp⟩ := hf.rooted.climbs _ ht.mem
    exact .tomb ((tomb_insert_ne hPc).mpr ht)
      (slot_extended hf hs hc ht rfl hp hp le_rfl hhead rfl)

theorem scanInsert_head {k : Identity → Bool} {l : List Identity} {x : Identity} :
    (l.takeWhile k ++ x :: l.dropWhile k).head? = l.head? ∨
      (l.takeWhile k ++ x :: l.dropWhile k).head? = some x := by
  cases l with
  | nil => exact Or.inr rfl
  | cons e l =>
    cases hk : k e with
    | true => simp [hk]
    | false => simp [hk]

end Places

def register (m : Characters) (cs : List CRDT) : Characters :=
  cs.foldl (fun m c => m.insert c.identity c.relation) m

theorem register_perm {m : Characters} {cs cs' : List CRDT} (h : cs.Perm cs')
    (hn : (cs.map CRDT.identity).Nodup) : register m cs = register m cs' := by
  refine h.foldl_eq' (fun c hc d hd m => ?_) m
  by_cases he : c.identity = d.identity
  · rw [List.inj_on_of_nodup_map hn hc hd he]
  · exact (Finmap.insert_insert_of_ne _ he)

section Runs

variable {f : SharFile} {P : Identity} {A B : List (List Identity)} {pre : List Identity}
  {child : Identity → Bool}

theorem newSiblings_landed {c : CRDT} {cs : List CRDT} {p : Projection}
    (h : NewSiblings f P (c :: cs)) : NewSiblings (landed f c p) P cs where
  parent := fun d hd => h.parent d (List.mem_cons_of_mem _ hd)
  fresh := by
    intro d hd hin
    have hn := h.distinct
    rw [List.map_cons, List.nodup_cons] at hn
    rcases Finmap.mem_insert.mp hin with he | hin
    · exact hn.1 (he ▸ List.mem_map_of_mem hd)
    · exact h.fresh d (List.mem_cons_of_mem _ hd) hin
  ordinary := fun d hd => h.ordinary d (List.mem_cons_of_mem _ hd)
  distinct := (List.nodup_cons.mp (List.map_cons ▸ h.distinct)).2

theorem applyAll_cons {g g' : SharFile} {hint : ℕ} {c : CRDT} {o : Outcome} {os : List Outcome}
    {calls : List (ℕ × CRDT)} (h : f.addCrdt hint c = some (o, g))
    (hs : applyAll g calls = some (os, g')) :
    applyAll f ((hint, c) :: calls) = some (o :: os, g') := by
  simp [applyAll, h, hs]

theorem allOfKind_cons {k : OutcomeKind} {call : ℕ × CRDT} {calls : List (ℕ × CRDT)} {o : Outcome}
    {os : List Outcome} (ho : outcomeKind o = k) (h : AllOfKind k calls os) :
    AllOfKind k (call :: calls) (o :: os) := by
  rw [AllOfKind, List.map_cons, h, ho]
  rfl

theorem applyAll_placed : ∀ {calls : List (ℕ × CRDT)} {f : SharFile} {post : List Identity},
    Sound f → Place f P A pre post B → (P = root → pre ≠ []) →
    NewSiblings f P (calls.map Prod.snd) →
    (∀ e ∈ post, childOf f.characters P e = child e) →
    (∀ c ∈ calls.map Prod.snd, child c.identity = true) →
    ∃ os, applyAll f calls = some (os, ⟨f.filePath, register f.characters (calls.map Prod.snd),
      A ++ (pre ++ scanAll sibling child ((calls.map Prod.snd).map CRDT.identity) post) :: B⟩) ∧
      AllOfKind .placed calls os := by
  intro calls
  induction calls with
  | nil =>
    intro f post _ hplace _ _ _ _
    refine ⟨[], ?_, rfl⟩
    have hrows := hplace.rows
    cases f
    simp [applyAll, register, scanAll, ← hrows]
  | cons call calls ih =>
    intro f post hf hplace hpre hs hpost hchild
    obtain ⟨hint, c⟩ := call
    rw [List.map_cons] at hs hchild
    have hparent := hs.parent c List.mem_cons_self
    have hc := hs.fresh c List.mem_cons_self
    have hb := hs.ordinary c List.mem_cons_self
    subst hparent
    have hskip : ∀ e ∈ post, skips f.characters c.relation.parent c.identity e =
        passes sibling child c.identity e := by
      intro e he
      rw [skips_eq, passes, passes, hpost e he]
    have hadd := add_char_at hf hplace hpre hc hb hint
    rw [takeWhile_congr hskip, dropWhile_congr hskip, List.append_assoc] at hadd
    have hadd' : f.addCrdt hint c = some (.ok (some (A.length,
        (pre ++ post.takeWhile (passes sibling child c.identity)).length)),
        landed f c (A ++ (pre ++ scanInsert sibling child c.identity post) :: B)) := hadd
    obtain ⟨o, g, he, hg⟩ := add_total hf c hint
    rw [hadd', Option.some.injEq, Prod.mk.injEq] at he
    have hsound := he.2 ▸ hg
    have hplace' := place_landed hf hplace hpre hc
      (scanInsert_head (k := passes sibling child c.identity))
    have hpost' : ∀ e ∈ scanInsert sibling child c.identity post,
        childOf (f.characters.insert c.identity c.relation) c.relation.parent e = child e := by
      intro e he
      rcases mem_scanInsert.mp he with rfl | he
      · rw [hchild c List.mem_cons_self]
        simp [childOf]
      · have hne : e ≠ c.identity := fun h => hc (h ▸ mem_row_known hf hplace.rows (by simp [he]))
        rw [← hpost e he, childOf, childOf, Finmap.lookup_insert_of_ne _ hne]
    obtain ⟨os, hos, hk⟩ := ih hsound hplace' hpre (newSiblings_landed hs) hpost'
      fun d hd => hchild d (List.mem_cons_of_mem _ hd)
    exact ⟨_, applyAll_cons hadd' hos, allOfKind_cons rfl hk⟩

theorem applyAll_ignored : ∀ {calls : List (ℕ × CRDT)} {f : SharFile}, Sound f →
    f.projection = [] :: B → NewSiblings f root (calls.map Prod.snd) →
    ∃ os, applyAll f calls = some (os, ⟨f.filePath, register f.characters (calls.map Prod.snd),
      f.projection⟩) ∧ AllOfKind .ignored calls os := by
  intro calls
  induction calls with
  | nil => exact fun _ _ _ => ⟨[], rfl, rfl⟩
  | cons call calls ih =>
    intro f hf hrows hs
    obtain ⟨hint, c⟩ := call
    rw [List.map_cons] at hs
    have hadd := add_dropped hf hrows (hs.parent c List.mem_cons_self)
      (hs.fresh c List.mem_cons_self) (hs.ordinary c List.mem_cons_self) hint
    obtain ⟨o, g, he, hg⟩ := add_total hf c hint
    rw [hadd, Option.some.injEq, Prod.mk.injEq] at he
    obtain ⟨os, hos, hk⟩ := ih (he.2 ▸ hg : Sound (landed f c f.projection)) hrows
      (newSiblings_landed hs)
    exact ⟨_, applyAll_cons hadd hos, allOfKind_cons rfl hk⟩

theorem applyAll_failed {calls : List (ℕ × CRDT)}
    (h : ∀ hint, ∀ c ∈ calls.map Prod.snd, ∃ e, f.addCrdt hint c = some (.error e, f)) :
    ∃ os, applyAll f calls = some (os, f) ∧ AllOfKind .failed calls os := by
  induction calls with
  | nil => exact ⟨[], rfl, rfl⟩
  | cons call calls ih =>
    obtain ⟨hint, c⟩ := call
    obtain ⟨e, he⟩ := h hint c (by simp)
    obtain ⟨os, hos, hk⟩ := ih fun hint d hd => h hint d (List.mem_cons_of_mem _ hd)
    exact ⟨_, applyAll_cons he hos, allOfKind_cons rfl hk⟩

theorem newSiblings_perm {cs cs' : List CRDT} (h : NewSiblings f P cs) (hp : cs.Perm cs') :
    NewSiblings f P cs' where
  parent := fun c hc => h.parent c (hp.mem_iff.mpr hc)
  fresh := fun c hc => h.fresh c (hp.mem_iff.mpr hc)
  ordinary := fun c hc => h.ordinary c (hp.mem_iff.mpr hc)
  distinct := (hp.map _).nodup_iff.mp h.distinct

/-- Every order gives the same file and for each call the same kind of outcome, and what lands is
sorted. The root has never been removed. -/
theorem siblings_sort {calls calls' : List (ℕ × CRDT)} (hf : Reached f) (hP : P ∈ f.characters)
    (hs : NewSiblings f P (calls.map Prod.snd))
    (hperm : (calls.map Prod.snd).Perm (calls'.map Prod.snd)) :
    ∃ os os' g k, applyAll f calls = some (os, g) ∧ applyAll f calls' = some (os', g) ∧
      AllOfKind k calls os ∧ AllOfKind k calls' os' ∧
      (k = .placed → SortedInto f g ((calls.map Prod.snd).map CRDT.identity)) := by
  have hsound := reached_sound hf
  have hs' := newSiblings_perm hs hperm
  have hreg := register_perm (m := f.characters) hperm hs.distinct
  rcases place_or_none hsound hP with ⟨A, pre, post, B, hplace⟩ | ⟨t, a, ha, hne, hnot⟩
  swap
  · have hfail : ∀ {calls : List (ℕ × CRDT)}, NewSiblings f P (calls.map Prod.snd) →
        ∀ hint, ∀ c ∈ calls.map Prod.snd, ∃ e, f.addCrdt hint c = some (.error e, f) := by
      intro calls hs hint c hc
      obtain rfl := hs.parent c hc
      exact ⟨_, add_nowhere hsound (hs.fresh c hc) ha hne hnot hint⟩
    obtain ⟨os, hos, hk⟩ := applyAll_failed (hfail hs)
    obtain ⟨os', hos', hk'⟩ := applyAll_failed (hfail hs')
    exact ⟨os, os', f, .failed, hos, hos', hk, hk', by simp⟩
  by_cases hpre : P = root ∧ pre = []
  · obtain ⟨rfl, hpre⟩ := hpre
    have hrows : f.projection = [] :: B := by
      cases hplace with
      | @root line _ hrows =>
        cases line with
        | nil => exact hrows
        | cons e line => exact absurd hpre (by simp)
      | live hne _ _ => exact absurd rfl hne
      | tomb ht _ => exact absurd rfl (hsound.rooted.tomb_ne_root ht)
    obtain ⟨os, hos, hk⟩ := applyAll_ignored hsound hrows hs
    obtain ⟨os', hos', hk'⟩ := applyAll_ignored hsound hrows hs'
    rw [← hreg] at hos'
    exact ⟨os, os', _, .ignored, hos, hos', hk, hk', by simp⟩
  · have hpre : P = root → pre ≠ [] := fun h he => hpre ⟨h, he⟩
    generalize hids : (calls.map Prod.snd).map CRDT.identity = ids
    have hidsp := hperm.map CRDT.identity
    rw [hids] at hidsp
    have hnew : ∀ x ∈ ids, x ∉ f.characters := by
      intro x hx
      rw [← hids] at hx
      obtain ⟨c, hc, rfl⟩ := List.mem_map.mp hx
      exact hs.fresh c hc
    have hold : ∀ e ∈ pre ++ post, e ∉ ids := fun e he hx =>
      hnew e hx (mem_row_known hsound hplace.rows he)
    -- the new characters count as children of `P` from the start
    let child : Identity → Bool := fun e => childOf f.characters P e || decide (e ∈ ids)
    have hpost : ∀ e ∈ post, childOf f.characters P e = child e := by
      intro e he
      have hne := hold e (by simp [he])
      simp [child, hne]
    have hchild : ∀ x ∈ ids, child x = true := by
      intro x hx
      simp [child, hx]
    obtain ⟨os, hos, hk⟩ := applyAll_placed hsound hplace hpre hs hpost fun c hc =>
      hchild _ (hids ▸ List.mem_map_of_mem hc)
    obtain ⟨os', hos', hk'⟩ := applyAll_placed hsound hplace hpre hs' hpost fun c hc =>
      hchild _ (hidsp.mem_iff.mpr (List.mem_map_of_mem hc))
    have hscan := scanAll_perm (r := sibling) hidsp hchild post
    rw [← hreg, ← hscan] at hos'
    rw [hids] at hos
    refine ⟨os, os', _, .placed, hos, hos', hk, hk', fun _ => ?_⟩
    have hpre_none : ∀ e ∈ pre, e ∉ ids := fun e he => hold e (by simp [he])
    have hpost_none : ∀ e ∈ post, e ∉ ids := fun e he => hold e (by simp [he])
    refine ⟨A, pre ++ post, _, B, hplace.rows, rfl, fun x hx => ?_, ?_, ?_⟩
    · exact List.mem_append_right _ (mem_scanAll.mpr (Or.inl hx))
    · have hnil : pre.filter (· ∈ ids) = [] := List.filter_eq_nil_iff.mpr (by simpa using hpre_none)
      rw [List.filter_append, hnil, List.nil_append]
      exact scanAll_ranked (r := sibling) (fun _ => of_decide_eq_true) hchild (hids ▸ hs.distinct)
        fun x hx he => hpost_none x he hx
    · rw [List.filter_append, filter_scanAll (by simp),
        List.filter_eq_self.mpr (by simpa using hpre_none),
        List.filter_eq_self.mpr (by simpa using hpost_none)]

end Runs

/-- Three children of a deleted character. -/
def deletedChildren : List (ℕ × CRDT) :=
  [(0, ⟨5, 1, .new 'x' 2 0⟩), (9, ⟨7, 1, .new 'y' 2 0⟩), (0, ⟨5, 3, .new 'z' 2 0⟩)]

theorem siblings_sort_deleted : ∃ f os os' g, f.projection = [[(0, 0), (1, 0)]] ∧
    applyAll f deletedChildren = some (os, g) ∧
    applyAll f deletedChildren.reverse = some (os', g) ∧
    AllOfKind .placed deletedChildren os ∧ AllOfKind .placed deletedChildren.reverse os' ∧
    SortedInto f g [(5, 1), (7, 1), (5, 3)] := by
  have hf : ∃ f, Reached f ∧ f.projection = [[(0, 0), (1, 0)]] ∧ (2, 0) ∈ f.characters ∧
      NewSiblings f (2, 0) (deletedChildren.map Prod.snd) ∧
      ∃ o os g, applyAll f deletedChildren = some (o :: os, g) ∧ outcomeKind o = .placed :=
    ⟨_, ⟨_, [(0, .remove (2, 0))], ⟨[], ['a', 'b'], 0, 2, rfl⟩,
      .cons (fun x hx he => by simp_all [root]) ⟨_, rfl⟩ (.nil _)⟩, rfl, by decide,
      ⟨by decide, by decide, by decide, by decide⟩, ⟨_, _, _, rfl, rfl⟩⟩
  obtain ⟨f, hf, hp, hP, hs, o, os, g, he, ho⟩ := hf
  have hperm : (deletedChildren.map Prod.snd).Perm (deletedChildren.reverse.map Prod.snd) := by
    rw [List.map_reverse]
    exact (List.reverse_perm _).symm
  obtain ⟨os₁, os', g₁, k, h₁, h₂, hk, hk', hsorted⟩ := siblings_sort hf hP hs hperm
  rw [he, Option.some.injEq, Prod.mk.injEq] at h₁
  obtain ⟨rfl, rfl⟩ := h₁
  obtain rfl : OutcomeKind.placed = k := by
    have hfirst : outcomeKind o :: os.map outcomeKind = k :: List.replicate 2 k := hk
    rw [← ho]
    exact (List.cons.inj hfirst).1
  exact ⟨f, o :: os, os', g, hp, he, h₂, hk, hk', hsorted rfl⟩

def AnyCall (_ : SharFile) (_ : Call) : Prop := True

/-- Under the removed root the search for the place never ends. -/
theorem removed_root_stops : ¬ ∀ (f : SharFile) (P : Identity) (calls calls' : List (ℕ × CRDT)),
    (∃ f₀ history, Loaded f₀ ∧ Run Step AnyCall f₀ history f) → P ∈ f.characters →
    NewSiblings f P (calls.map Prod.snd) →
    (calls.map Prod.snd).Perm (calls'.map Prod.snd) →
    ∃ os os' g k, applyAll f calls = some (os, g) ∧ applyAll f calls' = some (os', g) ∧
      AllOfKind k calls os ∧ AllOfKind k calls' os' ∧
      (k = .placed → SortedInto f g ((calls.map Prod.snd).map CRDT.identity)) := by
  intro h
  let calls : List (ℕ × CRDT) := [(0, ⟨1, 1, .new 'x' 0 0⟩)]
  have hf : ∃ f, (∃ f₀ history, Loaded f₀ ∧ Run Step AnyCall f₀ history f) ∧ root ∈ f.characters ∧
      NewSiblings f root (calls.map Prod.snd) ∧ applyAll f calls = none :=
    ⟨_, ⟨_, [(0, .remove root)], ⟨[], [], 0, 0, rfl⟩, .cons trivial ⟨_, rfl⟩ (.nil _)⟩, by decide,
      ⟨by decide, by decide, by decide, by decide⟩, rfl⟩
  obtain ⟨f, hreached, hP, hs, hnone⟩ := hf
  obtain ⟨os, _, g, _, hos, _⟩ := h f root calls calls hreached hP hs (.refl _)
  rw [hnone] at hos
  exact absurd hos (by simp)

end SiblingOrder
