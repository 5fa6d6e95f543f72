import Shario.ChildOrder
import Shario.Convergence

/-! A client that sends its inserts in one order while the server processes them in another.
The text of the server is that of the client if siblings are processed in the order in which
they were sent. -/
namespace SendOrder

open CrdtTypes FileTree FileSearch TreeOrder CharacterTree FilePlacement FileSafety FileShape
  DocumentOrder Convergence DirectoryTree ShareQueue TreeCalls QueueSteps NetworkDelivery
  NewIdentities QueueRuns Sessions LandsOnce TextSplices ChildOrder

/-- What the document of a client consists of: loaded characters and anchors with their
values, and its own characters under their tags. -/
inductive Cell where
  | loaded (x : Identity) (value : Char)
  | own (tag : ℕ)
  deriving DecidableEq, Repr

/-- An insert but for its character. -/
structure Keystroke where
  parent : Cell
  tag : ℕ
  lineHint : ℕ
  deriving DecidableEq, Repr

/-- The document after some inserts, each behind a cell that the document has. -/
inductive Session (doc : List Cell) : List Keystroke → List Cell → Prop where
  | start : Session doc [] doc
  | insert {sent l r} {k : Keystroke} : Session doc sent (l ++ k.parent :: r) →
      (∀ a ∈ sent, a.tag ≠ k.tag) →
      Session doc (sent ++ [k]) (l ++ k.parent :: .own k.tag :: r)

/-- What is sent: own characters are named by their tags. -/
def Keystroke.toIdeAdd (filePath : PathBuf) (letters : ℕ → Char) (k : Keystroke) : IdeAdd :=
  match k.parent with
  | .loaded x _ => ⟨filePath, some x.1, some x.2, none, letters k.tag, k.tag, k.lineHint⟩
  | .own tag => ⟨filePath, none, none, some tag, letters k.tag, k.tag, k.lineHint⟩

def Cell.value (letters : ℕ → Char) : Cell → Char
  | .loaded _ value => value
  | .own tag => letters tag

def opened (rows : List (List (Identity × Char))) : List Cell :=
  rows.flatten.map fun x => .loaded x.1 x.2

/-- The values of the projection, row by row, that of the root first. -/
def readRows (f : SharFile) : Option (List Char) :=
  f.identitiesWithValues.map fun rows => rows.flatten.map Prod.snd

/-- Inserts with the same parent are processed in the order in which they were sent. -/
def InSendOrder (sent order : List Keystroke) : Prop :=
  sent.Pairwise fun a b => a.parent = b.parent → order.idxOf a < order.idxOf b

instance (sent order : List Keystroke) : Decidable (InSendOrder sent order) :=
  inferInstanceAs (Decidable (List.Pairwise _ sent))

theorem mem_behind {α : Type} {p x : α} {l r : List α} (hnd : (l ++ p :: r).Nodup)
    (h : [p, x].Sublist (l ++ p :: r)) : x ∈ r := by
  obtain ⟨s, t, he, hs, ht⟩ := List.sublist_append_iff.mp h
  cases s with
  | nil =>
    rw [List.nil_append] at he
    subst he
    exact List.singleton_sublist.mp (List.cons_sublist_cons.mp ht)
  | cons y s =>
    rw [List.cons_append, List.cons.injEq] at he
    have hin : p ∈ l := hs.subset (he.1 ▸ List.mem_cons_self)
    exact absurd (List.mem_cons_self) (List.disjoint_of_nodup_append hnd hin)

theorem behind_perm {α : Type} (l r : List α) (p x : α) :
    (l ++ p :: x :: r).Perm (x :: (l ++ p :: r)) := by
  have hmid : ((l ++ [p]) ++ x :: r).Perm (x :: ((l ++ [p]) ++ r)) := List.perm_middle
  simpa using hmid

section Documents

variable {doc₀ doc : List Cell} {sent : List Keystroke} {a b k : Keystroke} {c : Cell}

theorem session_tags (h : Session doc₀ sent doc) : (sent.map Keystroke.tag).Nodup := by
  induction h with
  | start => exact List.nodup_nil
  | @insert sent l r k _ hnew ih =>
    rw [List.map_append, List.nodup_append']
    refine ⟨ih, by simp, fun tag htag hk => ?_⟩
    obtain ⟨a, ha, rfl⟩ := List.mem_map.mp htag
    exact hnew a ha (by simpa using hk)

theorem session_mem (h : Session doc₀ sent doc) :
    c ∈ doc ↔ c ∈ doc₀ ∨ ∃ k ∈ sent, c = .own k.tag := by
  induction h with
  | start => simp
  | @insert sent l r k _ _ ih =>
    rw [(behind_perm l r k.parent _).mem_iff, List.mem_cons, ih, or_comm, or_assoc]
    simp only [List.mem_append, List.mem_singleton, or_and_right, exists_or, exists_eq_left]

theorem session_parents (h : Session doc₀ sent doc) : ∀ (j : ℕ) (k : Keystroke),
    sent[j]? = some k → k.parent ∈ doc₀ ∨
      ∃ i a, i < j ∧ sent[i]? = some a ∧ k.parent = .own a.tag := by
  induction h with
  | start => simp
  | @insert sent l r k h _ ih =>
    have hold : ∀ {i : ℕ} {a : Keystroke}, sent[i]? = some a → (sent ++ [k])[i]? = some a :=
      fun ha => (getElem?_snoc sent k _).mpr (Or.inl ha)
    intro j b hb
    rcases (getElem?_snoc sent k j).mp hb with hb | ⟨rfl, rfl⟩
    · apply (ih j b hb).imp id
      rintro ⟨i, a, hij, ha, hp⟩
      exact ⟨i, a, hij, hold ha, hp⟩
    · apply ((session_mem h).mp (by simp)).imp id
      rintro ⟨a, ha, hp⟩
      obtain ⟨i, hi⟩ := List.getElem?_of_mem ha
      exact ⟨i, a, (List.getElem?_eq_some_iff.mp hi).1, hold hi, hp⟩

section Fresh

variable (hnd : doc₀.Nodup) (hfresh : ∀ tag, Cell.own tag ∉ doc₀)

include hnd hfresh

theorem session_nodup (h : Session doc₀ sent doc) : doc.Nodup := by
  induction h with
  | start => exact hnd
  | @insert sent l r k h hnew ih =>
    have hk : Cell.own k.tag ∉ l ++ k.parent :: r := by
      rw [session_mem h]
      rintro (hin | ⟨a, ha, he⟩)
      · exact hfresh _ hin
      · exact hnew a ha (Cell.own.inj he).symm
    rw [(behind_perm l r k.parent _).nodup_iff]
    exact List.nodup_cons.mpr ⟨hk, ih⟩

theorem session_siblings (h : Session doc₀ sent doc) :
    (∀ a ∈ sent, [a.parent, .own a.tag].Sublist doc) ∧
    sent.Pairwise fun a b => a.parent = b.parent → [Cell.own b.tag, .own a.tag].Sublist doc := by
  induction h with
  | start => simp
  | @insert sent l r k h hnew ih =>
    obtain ⟨hchild, hpairs⟩ := ih
    have hgrow : (l ++ k.parent :: r).Sublist (l ++ k.parent :: .own k.tag :: r) :=
      (List.Sublist.refl l).append ((List.sublist_cons_self _ _).cons_cons _)
    have hnew : [k.parent, .own k.tag].Sublist (l ++ k.parent :: .own k.tag :: r) := by
      refine List.Sublist.trans ?_ (List.sublist_append_right l _)
      exact (List.singleton_sublist.mpr (by simp)).cons_cons _
    constructor
    · intro a ha
      rcases List.mem_append.mp ha with ha | ha
      · exact (hchild a ha).trans hgrow
      · rw [List.mem_singleton.mp ha]
        exact hnew
    · refine List.pairwise_append.mpr ⟨hpairs.imp fun hab he => (hab he).trans hgrow,
        List.pairwise_singleton _ _, fun a ha b hb he => ?_⟩
      obtain rfl := List.mem_singleton.mp hb
      -- The earlier sibling stands somewhere behind the parent.
      have hin : Cell.own a.tag ∈ r :=
        mem_behind (session_nodup hnd hfresh h) (he ▸ hchild a ha)
      refine List.Sublist.trans ?_ (List.sublist_append_right l _)
      apply List.Sublist.cons _
      exact (List.singleton_sublist.mpr hin).cons_cons _

end Fresh

end Documents

/-- The identity that a cell has at the server. -/
def named (q₀ : SharQueue) (order : List Keystroke) : Cell → Identity
  | .loaded x _ => x
  | .own tag => given q₀ ((order.map Keystroke.tag).idxOf tag)

/-- A cell of the file or of one of the inserts. -/
def Drawn (f₀ : SharFile) (order : List Keystroke) : Cell → Prop
  | .loaded x value => x ∈ f₀.characters ∧ valueIn f₀ x = value
  | .own tag => tag ∈ order.map Keystroke.tag

section Sending

variable {q₀ : SharQueue} {order sent : List Keystroke} {k : Keystroke} {path : PathBuf}
  {letters : ℕ → Char} {f₀ : SharFile} {ref : FileRef} {doc : List Cell}
  {rows : List (List (Identity × Char))} {c d : Cell}

@[simp] theorem toIdeAdd_tag : (k.toIdeAdd path letters).tag = k.tag := by
  unfold Keystroke.toIdeAdd
  split <;> rfl

@[simp] theorem toIdeAdd_path : (k.toIdeAdd path letters).filePath = path := by
  unfold Keystroke.toIdeAdd
  split <;> rfl

@[simp] theorem toIdeAdd_val : (k.toIdeAdd path letters).val = letters k.tag := by
  unfold Keystroke.toIdeAdd
  split <;> rfl

theorem sent_tags : ((order.map (Keystroke.toIdeAdd path letters)).map IdeAdd.tag) =
    order.map Keystroke.tag := by
  simp [Function.comp_def]

theorem order_at {tag : ℕ} (h : tag ∈ order.map Keystroke.tag) :
    ∃ k, order[(order.map Keystroke.tag).idxOf tag]? = some k ∧ k.tag = tag := by
  have hlt := List.idxOf_lt_length_iff.mpr h
  have hat := List.getElem_idxOf hlt
  rw [List.getElem_map] at hat
  exact ⟨_, List.getElem?_eq_getElem (by simpa using hlt), hat⟩

theorem named_at (htags : (order.map Keystroke.tag).Nodup) {i : ℕ} (hi : order[i]? = some k) :
    named q₀ order (.own k.tag) = given q₀ i := by
  obtain ⟨hlt, rfl⟩ := List.getElem?_eq_some_iff.mp hi
  have hat := htags.idxOf_getElem i (by simpa using hlt)
  rw [List.getElem_map] at hat
  rw [named, hat]

theorem sent_parent (htags : (order.map Keystroke.tag).Nodup) (hk : Drawn f₀ order k.parent) :
    resolved q₀ (order.map (Keystroke.toIdeAdd path letters)) (k.toIdeAdd path letters) =
      some (named q₀ order k.parent) := by
  cases hp : k.parent with
  | loaded x value => simp [resolved, meant, Keystroke.toIdeAdd, hp, named]
  | own tag =>
    rw [hp] at hk
    obtain ⟨a, ha, hat⟩ := order_at hk
    have htag : tagOf (Sent.mk 0 (k.toIdeAdd path letters)).op = some tag := by
      simp [tagOf, Keystroke.toIdeAdd, hp]
    have hd : DistinctTags (alone (order.map (Keystroke.toIdeAdd path letters))) := by
      apply alone_distinct
      rw [sent_tags]
      exact htags
    have hin : (alone (order.map (Keystroke.toIdeAdd path letters)))[
        (order.map Keystroke.tag).idxOf tag]? = some ⟨0, a.toIdeAdd path letters⟩ := by
      simp [alone, List.getElem?_map, ha]
    have hown : tagged q₀ (alone (order.map (Keystroke.toIdeAdd path letters))) 0
        (a.toIdeAdd path letters).tag = _ := tagged_own hd hin
    rw [toIdeAdd_tag, hat] at hown
    rw [resolved, (meant_of_tagOf q₀ q₀ _ _ htag).1, named]
    exact hown

end Sending

section Opened

variable {q₀ : SharQueue} {order sent : List Keystroke} {k : Keystroke} {path : PathBuf}
  {letters : ℕ → Char} {f₀ : SharFile} {ref : FileRef} {doc : List Cell}
  {rows : List (List (Identity × Char))} {c d : Cell}

theorem opened_loaded (tag : ℕ) : Cell.own tag ∉ opened rows := by
  simp [opened]

theorem opened_eq (h : Sound f₀) (hrows : f₀.identitiesWithValues = some rows) :
    opened rows = (text f₀).map fun x => .loaded x (valueIn f₀ x) := by
  rw [identities_eq h, Option.some.injEq] at hrows
  rw [opened, ← hrows, text, List.map_flatten, List.map_map, List.map_flatten]
  simp [Function.comp_def]

variable (hgen : Genesis f₀ q₀.counter) (hrows : f₀.identitiesWithValues = some rows)

section Doc

include hgen hrows

theorem opened_named : (opened rows).map (named q₀ order) = text f₀ := by
  rw [opened_eq hgen.toSound hrows, List.map_map]
  exact List.map_id _

theorem opened_nodup : (opened rows).Nodup :=
  List.Nodup.of_map (named q₀ []) (opened_named hgen hrows ▸ hgen.nodup)

theorem doc_drawn (hs : Session (opened rows) sent doc) (hsub : ∀ a ∈ sent, a ∈ order)
    (hc : c ∈ doc) : Drawn f₀ order c := by
  rcases (session_mem hs).mp hc with hin | ⟨k, hk, rfl⟩
  · rw [opened_eq hgen.toSound hrows] at hin
    obtain ⟨x, hx, rfl⟩ := List.mem_map.mp hin
    exact ⟨hgen.known x hx, rfl⟩
  · exact List.mem_map_of_mem (hsub k hk)

theorem parent_drawn (hs : Session (opened rows) sent doc) (hsub : ∀ a ∈ sent, a ∈ order)
    (hk : k ∈ sent) : Drawn f₀ order k.parent := by
  have hsib := (session_siblings (opened_nodup hgen hrows) opened_loaded hs).1 k hk
  exact doc_drawn hgen hrows hs hsub (hsib.subset (by simp))

end Doc

include hgen in
theorem own_unknown (tag : ℕ) : named q₀ order (.own tag) ∉ f₀.characters := by
  intro hx
  have hle := hgen.below _ hx
  simp only [named, given] at hle
  omega

include hgen in
theorem named_inj (hc : Drawn f₀ order c) (hd : Drawn f₀ order d)
    (h : named q₀ order c = named q₀ order d) : c = d := by
  have hapart : ∀ {x : Identity} {tag : ℕ}, x ∈ f₀.characters →
      x ≠ named q₀ order (.own tag) :=
    fun hx he => own_unknown hgen _ (he ▸ hx)
  cases c with
  | loaded x v =>
    cases d with
    | loaded y w =>
      obtain rfl : x = y := h
      rw [← hc.2, ← hd.2]
    | own tag => exact absurd h (hapart hc.1)
  | own tag =>
    cases d with
    | loaded y w => exact absurd h.symm (hapart hd.1)
    | own tag' =>
      have hidx := given_inj h
      rw [List.idxOf_inj hc] at hidx
      rw [hidx]

section Bursts

variable (hs : Session (opened rows) sent doc) (hperm : order.Perm sent)

include hs

theorem sent_nodup : sent.Nodup := List.Nodup.of_map _ (session_tags hs)

include hperm

theorem order_tags : (order.map Keystroke.tag).Nodup :=
  (hperm.map _).nodup_iff.mpr (session_tags hs)

include hgen hrows

theorem parent_before_child {i j : ℕ} (hk : order[j]? = some k)
    (hp : named q₀ order k.parent = given q₀ i) :
    ∃ a, order[i]? = some a ∧ sent.idxOf a < sent.idxOf k := by
  have hin : k ∈ sent := hperm.mem_iff.mp (List.mem_of_getElem? hk)
  obtain ⟨n, hn⟩ := List.getElem?_of_mem hin
  have hat : ∀ {m : ℕ} {a : Keystroke}, sent[m]? = some a → sent.idxOf a = m := by
    intro m a ha
    obtain ⟨hlt, rfl⟩ := List.getElem?_eq_some_iff.mp ha
    exact (sent_nodup hs).idxOf_getElem m hlt
  rcases session_parents hs n k hn with hopen | ⟨m, a, hmn, ha, hpa⟩
  · rw [opened_eq hgen.toSound hrows] at hopen
    obtain ⟨x, hx, hxe⟩ := List.mem_map.mp hopen
    have hle := hgen.below x (hgen.known x hx)
    rw [← hxe] at hp
    have hx' : x = given q₀ i := hp
    rw [hx'] at hle
    simp only [given] at hle
    omega
  · have ha' : a ∈ order := hperm.mem_iff.mpr (List.mem_of_getElem? ha)
    obtain ⟨m', hm'⟩ := List.getElem?_of_mem ha'
    rw [hpa, named_at (order_tags hs hperm) hm'] at hp
    refine ⟨a, given_inj hp ▸ hm', ?_⟩
    rw [hat ha, hat hn]
    exact hmn

theorem session_burst (hroute : q₀.tree.findFile path = some ref)
    (hfile : q₀.tree.getFile ref = some f₀) :
    Burst q₀ ref (order.map (Keystroke.toIdeAdd path letters)) := by
  have htags := order_tags hs hperm
  have hsent : ∀ {j : ℕ} {op : IdeAdd},
      (order.map (Keystroke.toIdeAdd path letters))[j]? = some op →
      ∃ k, order[j]? = some k ∧ op = k.toIdeAdd path letters ∧ Drawn f₀ order k.parent := by
    intro j op hj
    rw [List.getElem?_map, Option.map_eq_some_iff] at hj
    obtain ⟨k, hk, rfl⟩ := hj
    have hin : k ∈ sent := hperm.mem_iff.mp (List.mem_of_getElem? hk)
    exact ⟨k, hk, rfl, parent_drawn hgen hrows hs (fun a ha => hperm.mem_iff.mpr ha) hin⟩
  refine ⟨fun op hop => ?_, sent_tags ▸ htags, fun j op hj => ?_, fun i ht => ?_⟩
  · obtain ⟨k, _, rfl⟩ := List.mem_map.mp hop
    rw [toIdeAdd_path]
    exact hroute
  · obtain ⟨k, hk, rfl, hdrawn⟩ := hsent hj
    refine ⟨_, sent_parent htags hdrawn, ?_⟩
    cases hp : k.parent with
    | loaded x value =>
      rw [hp] at hdrawn
      exact Or.inl ⟨f₀, hfile, hdrawn.1⟩
    | own tag =>
      rw [hp] at hdrawn
      refine Or.inr ⟨_, ?_, rfl, fun hn => ?_⟩
      · simpa using List.idxOf_lt_length_iff.mpr hdrawn
      · simp [tagOf, Keystroke.toIdeAdd, hp] at hn
  · -- Along dependencies the position among the sent inserts goes down.
    let rank : ℕ → ℕ := fun n => (order[n]?.map sent.idxOf).getD 0
    have hdown : ∀ {m n}, DependsOn q₀ (order.map (Keystroke.toIdeAdd path letters)) m n →
        rank n < rank m := by
      rintro m n ⟨op, hop, hres⟩
      obtain ⟨k, hk, rfl, hdrawn⟩ := hsent hop
      rw [sent_parent htags hdrawn, Option.some.injEq] at hres
      obtain ⟨a, ha, hlt⟩ := parent_before_child hgen hrows hs hperm hk hres
      simpa [rank, ha, hk] using hlt
    have hall : ∀ {m n}, Relation.TransGen
        (DependsOn q₀ (order.map (Keystroke.toIdeAdd path letters))) m n → rank n < rank m := by
      intro m n h
      induction h with
      | single hd => exact hdown hd
      | tail _ hd ih => exact (hdown hd).trans ih
    exact absurd (hall ht) (lt_irrefl _)

end Bursts

end Opened

/-- `f` is `f₀` with the inserts `sent` under their final identities, in document order. -/
structure Grown (q₀ : SharQueue) (f₀ : SharFile) (order : List Keystroke) (letters : ℕ → Char)
    (sent : List Keystroke) (f : SharFile) : Prop where
  canonical : Canonical f
  tombless : ∀ x, ¬ Tomb f.characters x
  carries : ∀ x s, Carries f.characters x s ↔ Carries f₀.characters x s ∨ ∃ k ∈ sent,
    x = named q₀ order (.own k.tag) ∧ s = .new (letters k.tag) (named q₀ order k.parent).1
      (named q₀ order k.parent).2

section Grows

variable {q₀ q : SharQueue} {order sent : List Keystroke} {k : Keystroke} {path : PathBuf}
  {letters : ℕ → Char} {f₀ f g : SharFile} {ref : FileRef} {doc l r : List Cell}
  {rows : List (List (Identity × Char))} {x : Identity} {s : CrdtRelation}

theorem grown_same (hf : Grown q₀ f₀ order letters sent f) (hg : Grown q₀ f₀ order letters sent g) :
    f.Same g :=
  canonical_unique hf.canonical hg.canonical (characters_ext
    (fun x s => (hf.carries x s).trans (hg.carries x s).symm)
    fun x => iff_of_false (hf.tombless x) (hg.tombless x))

theorem grown_start (hgen : Genesis f₀ q₀.counter) : Grown q₀ f₀ order letters [] f₀ :=
  ⟨hgen.toCanonical, hgen.tombless, by simp⟩

theorem grown_mem (hf : Grown q₀ f₀ order letters sent f) (hx : x ∈ f.characters) :
    x ∈ f₀.characters ∨ ∃ k ∈ sent, x = named q₀ order (.own k.tag) := by
  obtain ⟨rel, hrel⟩ := Finmap.mem_iff.mp hx
  rcases (hf.carries x _).mp ⟨rel, hrel, rfl⟩ with ⟨s, hs, _⟩ | ⟨k, hk, hxe, _⟩
  · exact Or.inl (Finmap.mem_iff.mpr ⟨s, hs⟩)
  · exact Or.inr ⟨k, hk, hxe⟩

theorem idx_named (htags : (order.map Keystroke.tag).Nodup) (hk : k ∈ order) :
    named q₀ order (.own k.tag) = given q₀ (order.idxOf k) :=
  named_at htags (List.getElem?_idxOf hk)

theorem landed_grown (htags : (order.map Keystroke.tag).Nodup)
    (hdrawn : ∀ k ∈ order, Drawn f₀ order k.parent)
    (h : LandedOnce q₀ ref (order.map (Keystroke.toIdeAdd path letters)) q)
    (hf₀ : q₀.tree.getFile ref = some f₀) (hf : q.tree.getFile ref = some f) (hcan : Canonical f) :
    Grown q₀ f₀ order letters order f := by
  have hholds : ∀ {p : SharQueue} {e : SharFile}, p.tree.getFile ref = some e → ∀ x s,
      Holds p ref x s ↔ Carries e.characters x s := by
    intro p e he x s
    constructor
    · rintro ⟨e', he', hc⟩
      exact Option.some.inj (he'.symm.trans he) ▸ hc
    · exact fun hc => ⟨e, he, hc⟩
  refine ⟨hcan, fun x ht => h.live ref x ⟨f, hf, ht⟩, fun x s => ?_⟩
  rw [← hholds hf, ← hholds hf₀, h.characters]
  refine or_congr_right ⟨?_, ?_⟩
  · rintro ⟨_, i, op, p, hi, rfl, hp, rfl⟩
    rw [List.getElem?_map, Option.map_eq_some_iff] at hi
    obtain ⟨k, hk, rfl⟩ := hi
    have hin := List.mem_of_getElem? hk
    rw [sent_parent htags (hdrawn k hin), Option.some.injEq] at hp
    exact ⟨k, hin, (named_at htags hk).symm, by rw [toIdeAdd_val, hp]⟩
  · rintro ⟨k, hk, rfl, rfl⟩
    obtain ⟨i, hi⟩ := List.getElem?_of_mem hk
    exact ⟨rfl, i, k.toIdeAdd path letters, _, by rw [List.getElem?_map, hi]; rfl,
      named_at htags hi, sent_parent htags (hdrawn k hk), by rw [toIdeAdd_val]⟩

section Client

variable (hgen : Genesis f₀ q₀.counter) (hrows : f₀.identitiesWithValues = some rows)
  (htags : (order.map Keystroke.tag).Nodup)

include hgen htags

theorem typed_first (hdrawn : ∀ a ∈ sent, Drawn f₀ order a.parent) (hk : Drawn f₀ order k.parent)
    (hin : k ∈ order) (hsub : ∀ a ∈ sent, a ∈ order)
    (hord : ∀ a ∈ sent, a.parent = k.parent → order.idxOf a < order.idxOf k)
    (hg : Grown q₀ f₀ order letters sent g) :
    FirstChild g.characters (named q₀ order k.parent) (named q₀ order (.own k.tag)) := by
  intro e rel hrel hpar hsib
  rw [idx_named htags hin] at hsib
  have hlt : e.1 < (given q₀ (order.idxOf k)).1 := by
    rcases (hg.carries e _).mp ⟨rel, hrel, rfl⟩ with ⟨s, hs, _⟩ | ⟨a, ha, rfl, hs⟩
    · have hle := hgen.below e (Finmap.mem_iff.mpr ⟨s, hs⟩)
      simp only [given]
      omega
    · have hpa : named q₀ order a.parent = named q₀ order k.parent :=
        (congrArg CrdtRelation.parent hs).symm.trans hpar
      have hidx := hord a ha (named_inj hgen (hdrawn a ha) hk hpa)
      rw [idx_named htags (hsub a ha)]
      simp only [given]
      omega
  unfold sibling at hsib
  omega

theorem grown_insert (hdrawn : ∀ a ∈ sent, Drawn f₀ order a.parent) (hk : Drawn f₀ order k.parent)
    (hin : k ∈ order) (hsub : ∀ a ∈ sent, a ∈ order) (hnew : ∀ a ∈ sent, a.tag ≠ k.tag)
    (hord : ∀ a ∈ sent, a.parent = k.parent → order.idxOf a < order.idxOf k)
    (hg : Grown q₀ f₀ order letters sent g)
    (htext : text g = (l ++ k.parent :: r).map (named q₀ order)) :
    ∃ g', Grown q₀ f₀ order letters (sent ++ [k]) g' ∧
      text g' = (l ++ k.parent :: .own k.tag :: r).map (named q₀ order) := by
  obtain ⟨c, hc, hrel⟩ : ∃ c : CRDT, c.identity = named q₀ order (.own k.tag) ∧
      c.relation = .new (letters k.tag) (named q₀ order k.parent).1 (named q₀ order k.parent).2 :=
    ⟨⟨_, _, _⟩, rfl, rfl⟩
  have hpar : c.relation.parent = named q₀ order k.parent := by
    rw [hrel]
    rfl
  have hfirst := typed_first hgen htags hdrawn hk hin hsub hord hg
  have hfresh : c.identity ∉ g.characters := by
    rw [hc]
    intro hmem
    rcases grown_mem hg hmem with h₀ | ⟨a, ha, he⟩
    · exact own_unknown hgen k.tag h₀
    · have hcell := named_inj hgen (c := .own k.tag) (d := .own a.tag) (List.mem_map_of_mem hin)
        (List.mem_map_of_mem (hsub a ha)) he
      exact hnew a ha (Cell.own.inj hcell).symm
  have hsplit : text g = l.map (named q₀ order) ++ c.relation.parent :: r.map (named q₀ order) := by
    rw [htext, List.map_append, List.map_cons, hpar]
  obtain ⟨g', hcan, htomb, htext', hchars⟩ := first_canonical hg.canonical hg.tombless hsplit hfresh
    (by rw [hpar, hc]; exact hfirst) (by rw [hrel]; rfl)
  refine ⟨g', ⟨hcan, htomb, fun y s => ?_⟩, ?_⟩
  · have hlast : c.identity = y ∧ alive c.relation = s ↔ y = named q₀ order (.own k.tag) ∧
        s = .new (letters k.tag) (named q₀ order k.parent).1 (named q₀ order k.parent).2 := by
      rw [hc, hrel, eq_comm, eq_comm (b := s)]
      rfl
    rw [hchars, carries_insert hfresh, hg.carries, hlast, or_assoc]
    simp only [List.mem_append, List.mem_singleton, or_and_right, exists_or, exists_eq_left]
  · rw [htext', List.map_append, List.map_cons, List.map_cons, hpar, hc]

include hrows in
theorem typed_grown (hs : Session (opened rows) sent doc) (hsub : ∀ a ∈ sent, a ∈ order)
    (hord : InSendOrder sent order) : ∃ g, Grown q₀ f₀ order letters sent g ∧
      text g = doc.map (named q₀ order) := by
  induction hs with
  | start => exact ⟨f₀, grown_start hgen, (opened_named hgen hrows).symm⟩
  | @insert sent l r k hs hnew ih =>
    have hsub' : ∀ a ∈ sent, a ∈ order := fun a ha => hsub a (List.mem_append_left _ ha)
    obtain ⟨hord', _, hlast⟩ := List.pairwise_append.mp hord
    obtain ⟨g, hg, htext⟩ := ih hsub' hord'
    exact grown_insert hgen htags (fun a ha => parent_drawn hgen hrows hs hsub' ha)
      (doc_drawn hgen hrows hs hsub' (by simp)) (hsub k (by simp)) hsub' hnew
      (fun a ha => hlast a ha k (by simp)) hg htext

end Client

section Reading

variable {letters' : ℕ → Char} {c : Cell}

theorem readRows_eq (h : Sound f) : readRows f = some ((text f).map (valueIn f)) := by
  rw [readRows, identities_eq h, Option.map_some, text, List.map_flatten, List.map_flatten,
    List.map_map]
  simp [Function.comp_def]

theorem carries_value (h : Carries f.characters x s) : valueIn f x = s.value := by
  obtain ⟨rel, hrel, rfl⟩ := h
  simp [valueIn, hrel, alive]

theorem grown_value_old (hf : Grown q₀ f₀ order letters sent f) (hx : x ∈ f₀.characters) :
    valueIn f x = valueIn f₀ x := by
  obtain ⟨rel, hrel⟩ := Finmap.mem_iff.mp hx
  have hc : Carries f₀.characters x (alive rel) := ⟨rel, hrel, rfl⟩
  rw [carries_value hc, carries_value ((hf.carries x _).mpr (Or.inl hc))]

theorem grown_value_new (hf : Grown q₀ f₀ order letters sent f) (hk : k ∈ sent) :
    valueIn f (named q₀ order (.own k.tag)) = letters k.tag :=
  carries_value ((hf.carries _ _).mpr (Or.inr ⟨k, hk, rfl, rfl⟩))

theorem grown_parent (hf : Grown q₀ f₀ order letters sent f) (hk : k ∈ sent)
    (hgen : Genesis f₀ q₀.counter) : parentOf f.characters (named q₀ order (.own k.tag)) =
      some (named q₀ order k.parent) := by
  obtain ⟨rel, hrel, he⟩ := (hf.carries (named q₀ order (.own k.tag)) _).mpr
    (Or.inr ⟨k, hk, rfl, rfl⟩)
  refine parentOf_eq_some.mpr ⟨fun hr => ?_, rel, hrel, congrArg CrdtRelation.parent he⟩
  exact own_unknown hgen k.tag (hr ▸ hgen.rooted.root_mem)

theorem grown_text (hf : Grown q₀ f₀ order letters sent f)
    (hg : Grown q₀ f₀ order letters' sent g) : text f = text g := by
  have half : ∀ {L L' : ℕ → Char} {a b : SharFile}, Grown q₀ f₀ order L sent a →
      Grown q₀ f₀ order L' sent b → ∀ x s, Carries a.characters x s →
        ∃ s', Carries b.characters x s' ∧ s'.parent = s.parent := by
    intro L L' a b ha hb x s hs
    rcases (ha.carries x s).mp hs with h₀ | ⟨k, hk, hx, rfl⟩
    · exact ⟨s, (hb.carries x s).mpr (Or.inl h₀), rfl⟩
    · exact ⟨_, (hb.carries x _).mpr (Or.inr ⟨k, hk, hx, rfl⟩), rfl⟩
  have hmem : ∀ {L L' : ℕ → Char} {a b : SharFile}, Grown q₀ f₀ order L sent a →
      Grown q₀ f₀ order L' sent b → ∀ x ∈ text a, x ∈ text b := by
    intro L L' a b ha hb x hx
    obtain ⟨rel, hrel⟩ := Finmap.mem_iff.mp (ha.canonical.known x hx)
    obtain ⟨s', ⟨rel', hrel', _⟩, _⟩ := half ha hb x _ ⟨rel, hrel, rfl⟩
    have hin : x ∈ b.characters := Finmap.mem_iff.mpr ⟨rel', hrel'⟩
    exact (hb.canonical.live x).mp ((live_or_tomb hin).resolve_right (hb.tombless x))
  have hpar : ∀ {L L' : ℕ → Char} {a b : SharFile}, Grown q₀ f₀ order L sent a →
      Grown q₀ f₀ order L' sent b → ∀ x y, parentOf a.characters x = some y →
        parentOf b.characters x = some y := by
    intro L L' a b ha hb x y hxy
    obtain ⟨hne, rel, hrel, rfl⟩ := parentOf_eq_some.mp hxy
    obtain ⟨_, ⟨rel', hrel', rfl⟩, hp⟩ := half ha hb x _ ⟨rel, hrel, rfl⟩
    exact parentOf_eq_some.mpr ⟨hne, rel', hrel', hp⟩
  have hsame : parentOf f.characters = parentOf g.characters := by
    funext x
    refine Option.ext fun y => ⟨hpar hf hg x y, hpar hg hf x y⟩
  have hord := hf.canonical.ordered
  unfold DocBefore at hord
  rw [hsame] at hord
  exact document_unique (parentOf_root _) hord hg.canonical.ordered
    fun x => ⟨hmem hf hg x, hmem hg hf x⟩

/-- The file reads as the document of the client, whatever the letters. -/
def ReadsAs (q₀ : SharQueue) (f₀ : SharFile) (order sent : List Keystroke) (doc : List Cell) :
    Prop :=
  ∀ letters, ∃ f, Grown q₀ f₀ order letters sent f ∧
    readRows f = some (doc.map (Cell.value letters))

/-- Then its own characters stand where the client has them: a change of one letter shows. -/
theorem own_place (hall : ReadsAs q₀ f₀ order sent doc) (hf : Grown q₀ f₀ order letters sent f)
    {i tag : ℕ} (hi : doc[i]? = some (.own tag)) :
    (text f)[i]? = some (named q₀ order (.own tag)) := by
  have hread : ∀ L, ∃ g, Grown q₀ f₀ order L sent g ∧ ∃ x, (text f)[i]? = some x ∧ x ∈ text f ∧
      valueIn g x = L tag := by
    intro L
    obtain ⟨g, hg, hrows⟩ := hall L
    rw [readRows_eq hg.canonical.toSound, Option.some.injEq, grown_text hg hf] at hrows
    have hat := congrArg (fun l => l[i]?) hrows
    simp only [List.getElem?_map, hi, Option.map_some, Option.map_eq_some_iff] at hat
    obtain ⟨x, hx, hv⟩ := hat
    exact ⟨g, hg, x, hx, List.mem_of_getElem? hx, hv⟩
  obtain ⟨g, hg, x, hx, hmem, hv⟩ := hread fun _ => 'a'
  obtain ⟨g', hg', x', hx', _, hv'⟩ := hread fun t => if t = tag then 'b' else 'a'
  obtain rfl := Option.some.inj (hx.symm.trans hx')
  rw [if_pos rfl] at hv'
  rcases grown_mem hf (hf.canonical.known x hmem) with h₀ | ⟨k, hk, rfl⟩
  · rw [grown_value_old hg h₀] at hv
    rw [grown_value_old hg' h₀, hv] at hv'
    exact absurd hv' (by decide)
  · rw [grown_value_new hg' hk] at hv'
    by_cases ht : k.tag = tag
    · rw [← ht]
      exact hx
    · rw [if_neg ht] at hv'
      exact absurd hv' (by decide)

theorem reads_order (hgen : Genesis f₀ q₀.counter) (hrows : f₀.identitiesWithValues = some rows)
    (htags : (order.map Keystroke.tag).Nodup) (hs : Session (opened rows) sent doc)
    (hsub : ∀ a ∈ sent, a ∈ order) (hall : ReadsAs q₀ f₀ order sent doc) :
    InSendOrder sent order := by
  obtain ⟨f, hf, _⟩ := hall fun _ => 'a'
  have hpairs := (session_siblings (opened_nodup hgen hrows) opened_loaded hs).2
  refine List.Pairwise.imp_of_mem (fun {a b} ha hb hab he => ?_) hpairs
  obtain ⟨place, hplace⟩ := List.sublist_iff_exists_orderEmbedding_getElem?_eq.mp (hab he)
  have hlt : place 0 < place 1 := place.strictMono (by decide)
  obtain ⟨hi, hatb⟩ := List.getElem?_eq_some_iff.mp (own_place hall hf (hplace 0).symm)
  obtain ⟨hj, hata⟩ := List.getElem?_eq_some_iff.mp (own_place hall hf (hplace 1).symm)
  have hbefore : DocBefore f.characters (named q₀ order (.own b.tag))
      (named q₀ order (.own a.tag)) := by
    rw [← hatb, ← hata]
    exact List.pairwise_iff_getElem.mp hf.canonical.ordered _ _ hi hj hlt
  have hpa := grown_parent hf ha hgen
  have hpb := grown_parent hf hb hgen
  rw [← he] at hpb
  obtain ⟨_, rel, hrel, hrp⟩ := parentOf_eq_some.mp hpa
  obtain ⟨p, hp⟩ := hf.canonical.rooted.climbs _ (hrp ▸ hf.canonical.rooted.parent_mem hrel)
  have hsib := (sibling_before_iff (parentOf_root _) hp hpa hpb).mp hbefore
  rw [idx_named htags (hsub a ha), idx_named htags (hsub b hb)] at hsib
  unfold sibling at hsib
  simp only [given] at hsib
  omega

end Reading

theorem grown_perm (hperm : order.Perm sent) (hf : Grown q₀ f₀ order letters order f) :
    Grown q₀ f₀ order letters sent f :=
  ⟨hf.canonical, hf.tombless, fun x s => by
    rw [hf.carries]
    simp only [hperm.mem_iff]⟩

end Grows

theorem run_fits : ∀ {calls : List IdeAdd} {q q' : SharQueue}, Below q.counter q →
    calls.foldlM SharQueue.addIdeOperation q = some q' →
    ∀ i < calls.length, q.counter + i + 1 < 2 ^ 32 := by
  intro calls
  induction calls with
  | nil => simp
  | cons op calls ih =>
    intro q q' h hrun i hi
    rw [List.foldlM_cons, Option.bind_eq_bind, Option.bind_eq_some_iff] at hrun
    obtain ⟨q₁, hq₁, hrun⟩ := hrun
    obtain ⟨h₁, hc⟩ := addIde_below h hq₁
    simp only [SharQueue.addIdeOperation, Option.bind_eq_bind, Option.bind_eq_some_iff] at hq₁
    obtain ⟨n, hn, _⟩ := hq₁
    have hfirst := (tick_eq_some.mp hn).1
    cases i with
    | zero => omega
    | succ i =>
      have hrest := ih h₁ hrun i (by simpa using hi)
      omega

section Runs

variable {q₀ : SharQueue} {order sent : List Keystroke} {path : PathBuf} {f₀ : SharFile}
  {ref : FileRef} {doc : List Cell} {rows : List (List (Identity × Char))} {dirPath : PathBuf}
  {read : Except String (List FsEntry)} {peer : ℕ}

/-- The text of the server is the final text of the client, whatever characters were typed,
if and only if siblings are processed in the order of their sending, and the ids suffice. -/
theorem text_agrees_iff (hl : SharQueue.new dirPath read peer = some (.ok q₀))
    (hroute : q₀.tree.findFile path = some ref) (hfile : q₀.tree.getFile ref = some f₀)
    (hrows : f₀.identitiesWithValues = some rows) (hs : Session (opened rows) sent doc)
    (hperm : order.Perm sent) :
    (∀ letters, ∃ q f,
      (order.map (Keystroke.toIdeAdd path letters)).foldlM SharQueue.addIdeOperation q₀ = some q ∧
      q.tree.getFile ref = some f ∧ readRows f = some (doc.map (Cell.value letters))) ↔
    InSendOrder sent order ∧ ∀ i < sent.length, (given q₀ i).1 < 2 ^ 32 := by
  have hgen : Genesis f₀ q₀.counter := DeliveryRuns.loaded_files hl ref f₀ hfile
  have htags := order_tags hs hperm
  have hsub : ∀ a ∈ sent, a ∈ order := fun a ha => hperm.mem_iff.mpr ha
  have hrun : (∀ i < sent.length, (given q₀ i).1 < 2 ^ 32) → ∀ letters, ∃ q f,
      (order.map (Keystroke.toIdeAdd path letters)).foldlM SharQueue.addIdeOperation q₀ = some q ∧
      q.tree.getFile ref = some f ∧ Grown q₀ f₀ order letters sent f := by
    intro hfits letters
    by_cases hnil : order = []
    · subst hnil
      exact ⟨q₀, f₀, rfl, hfile, grown_perm hperm (grown_start hgen)⟩
    · have hlen := hperm.length_eq
      have hpos := List.length_pos_iff.mpr hnil
      have hlast := hfits (sent.length - 1) (by omega)
      simp only [given] at hlast
      obtain ⟨q, f, hq, hland, hf, hcan⟩ := ChildOrder.burst_canonical hl
        (session_burst hgen hrows hs hperm hroute hfile) hfile (by rw [List.length_map]; omega)
      exact ⟨q, f, hq, hf, grown_perm hperm (landed_grown htags (fun k hk =>
        parent_drawn hgen hrows hs hsub (hperm.mem_iff.mp hk)) hland hfile hf hcan)⟩
  constructor
  · intro hall
    have hfits : ∀ i < sent.length, (given q₀ i).1 < 2 ^ 32 := by
      obtain ⟨q, _, hq, _⟩ := hall fun _ => 'a'
      intro i hi
      have hfit := run_fits (loaded_below hl).1 hq i (by
        rw [List.length_map, hperm.length_eq]
        exact hi)
      exact hfit
    refine ⟨reads_order hgen hrows htags hs hsub fun letters => ?_, hfits⟩
    obtain ⟨q, f, hq, hf, hread⟩ := hall letters
    obtain ⟨q', f', hq', hf', hgrown⟩ := hrun hfits letters
    obtain rfl := Option.some.inj (hq.symm.trans hq')
    obtain rfl := Option.some.inj (hf.symm.trans hf')
    exact ⟨f, hgrown, hread⟩
  · rintro ⟨hord, hfits⟩ letters
    obtain ⟨q, f, hq, hf, hgrown⟩ := hrun hfits letters
    refine ⟨q, f, hq, hf, ?_⟩
    obtain ⟨g, hg, htext⟩ : ∃ g, Grown q₀ f₀ order letters sent g ∧
      text g = doc.map (named q₀ order) := typed_grown hgen hrows htags hs hsub hord
    have hsame : text f = doc.map (named q₀ order) := by
      rw [← htext, text, (grown_same hgrown hg).2, text]
    rw [readRows_eq hgrown.canonical.toSound, hsame, List.map_map]
    refine congrArg some (List.map_congr_left fun c hc => ?_)
    have hdrawn := doc_drawn hgen hrows hs hsub hc
    cases c with
    | loaded x value => exact (grown_value_old hgrown hdrawn.1).trans hdrawn.2
    | own tag =>
      obtain ⟨k, hk, rfl⟩ := List.mem_map.mp hdrawn
      exact grown_value_new hgrown (hperm.mem_iff.mp hk)

end Runs

def atStart : Cell := .loaded root (Char.ofNat 0)

def typeX : Keystroke := ⟨atStart, 1, 0⟩
def typeY : Keystroke := ⟨.own 1, 2, 0⟩
def typeZ : Keystroke := ⟨atStart, 3, 0⟩

def onePath : PathBuf := [.rootDir, .normal "s", .normal "f"]

theorem xyz_session :
    Session [atStart] [typeX, typeY, typeZ] [atStart, .own 3, .own 1, .own 2] := by
  have hx : Session [atStart] [typeX] [atStart, .own 1] :=
    .insert (l := []) (k := typeX) .start (by simp)
  have hy : Session [atStart] [typeX, typeY] [atStart, .own 1, .own 2] :=
    .insert (l := [atStart]) (k := typeY) hx (by simp [typeX, typeY])
  exact .insert (l := []) (k := typeZ) hy (by simp [typeX, typeY, typeZ])

theorem text_agrees_iff_child_first : ∃ q₀, SharQueue.new [.rootDir, .normal "s"]
    (.ok [.file "f" (.ok [])]) 5 = some (.ok q₀) ∧
    ∀ letters, ∃ q f, ([typeY, typeX, typeZ].map (Keystroke.toIdeAdd onePath letters)).foldlM
      SharQueue.addIdeOperation q₀ = some q ∧ q.tree.getFile ([], 0) = some f ∧
      readRows f = some ([atStart, .own 3, .own 1, .own 2].map (Cell.value letters)) := by
  have hq : ∃ q₀ f₀, SharQueue.new [.rootDir, .normal "s"] (.ok [.file "f" (.ok [])]) 5 =
      some (.ok q₀) ∧ q₀.tree.findFile onePath = some ([], 0) ∧ q₀.counter = 0 ∧
      q₀.tree.getFile ([], 0) = some f₀ ∧ f₀.identitiesWithValues = some [[(root, Char.ofNat 0)]] :=
    ⟨_, _, rfl, by decide, rfl, rfl, rfl⟩
  obtain ⟨q₀, f₀, hl, hroute, hc, hf, hrows⟩ := hq
  refine ⟨q₀, hl, (text_agrees_iff hl hroute hf hrows xyz_session (by decide)).mpr ⟨by decide, ?_⟩⟩
  intro i hi
  simp only [given, hc]
  have hlen : i < 3 := hi
  omega

/-- When `z` is processed before `x`, the text of the server is `xyz`. -/
theorem swapped_siblings_differ : ¬ ∀ (dirPath path : PathBuf)
    (read : Except String (List FsEntry)) (peer : ℕ) (q₀ : SharQueue) (ref : FileRef)
    (f₀ : SharFile) (rows : List (List (Identity × Char))) (sent order : List Keystroke)
    (doc : List Cell) (letters : ℕ → Char), SharQueue.new dirPath read peer = some (.ok q₀) →
    q₀.tree.findFile path = some ref → q₀.tree.getFile ref = some f₀ →
    f₀.identitiesWithValues = some rows → Session (opened rows) sent doc → order.Perm sent →
    ∃ q f, (order.map (Keystroke.toIdeAdd path letters)).foldlM SharQueue.addIdeOperation q₀ =
      some q ∧ q.tree.getFile ref = some f ∧ readRows f = some (doc.map (Cell.value letters)) := by
  intro h
  have hq : ∃ q₀ f₀, SharQueue.new [.rootDir, .normal "s"] (.ok [.file "f" (.ok [])]) 5 =
      some (.ok q₀) ∧ q₀.tree.findFile onePath = some ([], 0) ∧
      q₀.tree.getFile ([], 0) = some f₀ ∧ f₀.identitiesWithValues = some [[(root, Char.ofNat 0)]] ∧
      q₀ = oneFile "s" 5 noChars [[root]] 0 [] :=
    ⟨_, _, rfl, by decide, rfl, rfl, rfl⟩
  obtain ⟨q₀, f₀, hl, hroute, hf, hrows, rfl⟩ := hq
  let letters : ℕ → Char := fun tag => if tag = 1 then 'x' else if tag = 2 then 'y' else 'z'
  obtain ⟨q, f, hrun, hf', hread⟩ := h _ onePath _ _ _ _ _ _ _ [typeZ, typeX, typeY] _ letters hl
    hroute hf hrows xyz_session (by decide)
  have h₁ : ∃ l, (oneFile "s" 5 noChars [[root]] 0 []).addIdeOperation
      (typeZ.toIdeAdd onePath letters) = some { oneFile "s" 5 (noChars.insert (1, 5) (.new 'z' 0 0))
        [[root, (1, 5)]] 1 l with tagIdentities := Finmap.insert 3 (1, 5) ∅ } := ⟨_, rfl⟩
  obtain ⟨l₁, h₁⟩ := h₁
  have h₂ : ∃ l, SharQueue.addIdeOperation { oneFile "s" 5 (noChars.insert (1, 5) (.new 'z' 0 0))
        [[root, (1, 5)]] 1 l₁ with tagIdentities := Finmap.insert 3 (1, 5) ∅ }
      (typeX.toIdeAdd onePath letters) = some { oneFile "s" 5
        ((noChars.insert (1, 5) (.new 'z' 0 0)).insert (2, 5) (.new 'x' 0 0))
        [[root, (2, 5), (1, 5)]] 2 l with
          tagIdentities := Finmap.insert 1 (2, 5) (Finmap.insert 3 (1, 5) ∅) } := ⟨_, rfl⟩
  obtain ⟨l₂, h₂⟩ := h₂
  have h₃ : ∃ l t, SharQueue.addIdeOperation { oneFile "s" 5
        ((noChars.insert (1, 5) (.new 'z' 0 0)).insert (2, 5) (.new 'x' 0 0))
        [[root, (2, 5), (1, 5)]] 2 l₂ with
          tagIdentities := Finmap.insert 1 (2, 5) (Finmap.insert 3 (1, 5) ∅) }
      (typeY.toIdeAdd onePath letters) = some { oneFile "s" 5
        (((noChars.insert (1, 5) (.new 'z' 0 0)).insert (2, 5) (.new 'x' 0 0)).insert (3, 5)
          (.new 'y' 2 5)) [[root, (2, 5), (3, 5), (1, 5)]] 3 l with tagIdentities := t } :=
    ⟨_, _, rfl⟩
  obtain ⟨l₃, t, h₃⟩ := h₃
  simp only [List.map_cons, List.map_nil, List.foldlM_cons, List.foldlM_nil, Option.bind_eq_bind,
    h₁, h₂, h₃, Option.bind_some, Option.pure_def, Option.some.injEq] at hrun
  subst hrun
  obtain rfl := Option.some.inj hf'
  exact absurd hread (by decide)

end SendOrder
