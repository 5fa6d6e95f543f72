import Shario.QueueSteps

/-! The IDE calls of the queue as sequences of single retries. The log is left out: a call
writes its own entry only after those of the operations it woke. -/
namespace IdeSteps

open CrdtTypes FileTree FilePlacement FileSafety DirectoryTree ShareQueue WorklistDrain TreeCalls
  QueueSteps

def ideCrdt (op : IdeAdd) (x parent : Identity) : CRDT := ⟨x.1, x.2, .new op.val parent.1 parent.2⟩

def waitingTag (q : SharQueue) (tag : ℕ) (op : IdeAdd) : SharQueue :=
  { q with ideTagBacklog := push q.ideTagBacklog tag op }

def waitingIde (q : SharQueue) (k : Identity) (op : IdeAdd) : SharQueue :=
  { q with ideBacklog := push q.ideBacklog k op }

/-- The outcomes of an IDE add that lands nowhere. -/
inductive Held (q : SharQueue) (op : IdeAdd) : SharQueue → Prop where
  | untagged {tag} : q.ideParent op = none → op.parentTag = some tag →
      Held q op (waitingTag q tag op)
  | repeated {x parent t} : q.ideParent op = some parent → q.tagIdentities.lookup op.tag = some x →
      TreeAdded q.tree op.filePath (ideCrdt op x parent) (.ok none) t → Held q op (withTree q t)
  | early {x parent e t} : q.ideParent op = some parent →
      q.tagIdentities.lookup op.tag = some x →
      TreeAdded q.tree op.filePath (ideCrdt op x parent) (.error e) t →
      Held q op (waitingIde (withTree q t) parent op)

/-- An IDE add that lands as `x`; `t` is the tree with it. -/
structure Lands (q : SharQueue) (op : IdeAdd) (x parent : Identity) (pos : Position)
    (t : SharDirectory) : Prop where
  resolved : q.ideParent op = some parent
  tagged : q.tagIdentities.lookup op.tag = some x
  added : TreeAdded q.tree op.filePath (ideCrdt op x parent) (.ok (some pos)) t

/-- An add without any parent, or whose own tag was never registered. -/
def IdeCrashes (q : SharQueue) (op : IdeAdd) : Prop :=
  q.ideParent op = none ∧ op.parentTag = none ∨
    (∃ parent, q.ideParent op = some parent) ∧ q.tagIdentities.lookup op.tag = none

def ideShown (q : SharQueue) (op : IdeAdd) (x parent : Identity) (pos : Position) : Callback :=
  .ideAdd ⟨q.toRelativePath op.filePath, ideCrdt op x parent, pos.1⟩
    (SharQueue.rewriteParent q.tree op.filePath pos
      ⟨q.toRelativePath op.filePath, ideCrdt op x parent, pos.1⟩)

theorem ide_inner_cases {q : SharQueue} (hs : AllFiles Sound q.tree) (op : IdeAdd) :
    (∃ q', Held q op q' ∧ ∀ dependants, q.addIdeOperationInner op dependants = some q') ∨
    (∃ x parent pos t, Lands q op x parent pos t ∧ ∀ dependants,
      q.addIdeOperationInner op dependants =
        (dependants (withTree q t) x).map fun q => q.fire (ideShown q op x parent pos)) ∨
    (IdeCrashes q op ∧ ∀ dependants, q.addIdeOperationInner op dependants = none) := by
  unfold SharQueue.addIdeOperationInner
  cases hp : q.ideParent op with
  | none =>
    cases ht : op.parentTag with
    | none => exact Or.inr (Or.inr ⟨Or.inl ⟨hp, ht⟩, fun _ => rfl⟩)
    | some tag => exact Or.inl ⟨_, .untagged hp ht, fun _ => rfl⟩
  | some parent =>
    cases hx : q.tagIdentities.lookup op.tag with
    | none => exact Or.inr (Or.inr ⟨Or.inr ⟨⟨parent, hp⟩, hx⟩, fun _ => rfl⟩)
    | some x =>
      obtain ⟨o, t, he, ha⟩ := tree_add_cases hs op.filePath op.lineHint (ideCrdt op x parent)
      have he' : q.tree.addCrdt op.filePath op.lineHint
          ⟨x.1, x.2, .new op.val parent.1 parent.2⟩ = some (o, t) := he
      simp only [Option.bind_eq_bind, Option.bind_some, he']
      cases o with
      | error e => exact Or.inl ⟨_, .early hp hx ha, fun _ => rfl⟩
      | ok pos =>
        cases pos with
        | none => exact Or.inl ⟨_, .repeated hp hx ha, fun _ => rfl⟩
        | some pos =>
          refine Or.inr (Or.inl ⟨x, parent, pos, t, ⟨hp, hx, ha⟩, fun dependants => ?_⟩)
          change (dependants (withTree q t) x).bind _ = _
          cases dependants (withTree q t) x <;> rfl

/-- What one IDE add does to a queue, whose worklist is left to be drained. -/
inductive RetriedIde (q : SharQueue) (op : IdeAdd) : SharQueue → Prop where
  | held {q'} : Held q op q' → RetriedIde q op q'
  | landed {x parent pos t} : Lands q op x parent pos t →
      RetriedIde q op (((withTree q t).queueIdeBacklog x).fire
        (ideShown ((withTree q t).queueIdeBacklog x) op x parent pos))

theorem retryIde_cases {q : SharQueue} (hs : AllFiles Sound q.tree) (op : IdeAdd) :
    (∃ q', q.retryIde op = some q' ∧ RetriedIde q op q') ∨
    (q.retryIde op = none ∧ IdeCrashes q op) := by
  rcases ide_inner_cases hs op with ⟨q', hh, he⟩ | ⟨x, parent, pos, t, hl, he⟩ | ⟨hc, he⟩
  · exact Or.inl ⟨q', he _, .held hh⟩
  · exact Or.inl ⟨_, he _, .landed hl⟩
  · exact Or.inr ⟨he _, hc⟩

section Fields

variable (q : SharQueue) (x k : Identity) (op : IdeAdd) (tag : ℕ) (t : SharDirectory)
  (l : List Callback)

def unlogged (q : SharQueue) (l : List Callback) : SharQueue := { q with fired := l }

@[simp] theorem queueIde_tree : (q.queueIdeBacklog x).tree = q.tree := by
  unfold SharQueue.queueIdeBacklog
  split <;> rfl

@[simp] theorem queueIde_tags : (q.queueIdeBacklog x).tagIdentities = q.tagIdentities := by
  unfold SharQueue.queueIdeBacklog
  split <;> rfl

@[simp] theorem queueIde_tagBacklog : (q.queueIdeBacklog x).ideTagBacklog = q.ideTagBacklog := by
  unfold SharQueue.queueIdeBacklog
  split <;> rfl

@[simp] theorem queueIde_network : (q.queueIdeBacklog x).networkBacklog = q.networkBacklog := by
  unfold SharQueue.queueIdeBacklog
  split <;> rfl

@[simp] theorem queueIde_peer : (q.queueIdeBacklog x).peer = q.peer := by
  unfold SharQueue.queueIdeBacklog
  split <;> rfl

theorem queueIde_tight (h : Tight q.ideBacklog) : Tight (q.queueIdeBacklog x).ideBacklog := by
  unfold SharQueue.queueIdeBacklog
  split
  · exact tight_erase h
  · exact h

theorem queueIde_backlog : Waits (q.queueIdeBacklog x).ideBacklog k op ↔
    Waits q.ideBacklog k op ∧ k ≠ x := by
  unfold SharQueue.queueIdeBacklog
  split
  · exact waits_erase
  · rename_i hl
    constructor
    · rintro ⟨l, hk, hi⟩
      refine ⟨⟨l, hk, hi⟩, ?_⟩
      rintro rfl
      rw [hl] at hk
      exact absurd hk (by simp)
    · exact fun h => h.1

theorem queueIde_worklist : op ∈ (q.queueIdeBacklog x).ideWorklist ↔
    op ∈ q.ideWorklist ∨ Waits q.ideBacklog x op := by
  unfold SharQueue.queueIdeBacklog Waits
  split
  · rename_i l hl
    simp [hl]
  · rename_i hl
    simp [hl]

theorem queueIde_pending :
    ((q.queueIdeBacklog x).ideWorklist : Multiset IdeAdd) +
        (contents (q.queueIdeBacklog x).ideBacklog + contents (q.queueIdeBacklog x).ideTagBacklog) =
      q.ideWorklist + (contents q.ideBacklog + contents q.ideTagBacklog) := by
  unfold SharQueue.queueIdeBacklog
  split
  · rename_i l hl
    simp only [contents_erase hl, ← Multiset.coe_add, Multiset.add_assoc]
  · rfl

end Fields

theorem popIde_eq {q q₁ : SharQueue} {op : IdeAdd} (h : q.popIde = some (op, q₁)) :
    ∃ rest, q.ideWorklist = op :: rest ∧ q₁ = { q with ideWorklist := rest } := by
  unfold SharQueue.popIde at h
  split at h
  · rename_i first rest hl
    rw [Option.some.injEq, Prod.mk.injEq] at h
    obtain ⟨rfl, rfl⟩ := h
    exact ⟨rest, hl, rfl⟩
  · simp at h

theorem ideRounds_eq (q : SharQueue) : q.ideRounds = roundBound q.ideWorklist
    (contents q.ideBacklog + contents q.ideTagBacklog) := by
  simp only [SharQueue.ideRounds, roundBound, size_eq_card, Multiset.card_add, Nat.add_assoc]

theorem retryIde_rounds {q q₁ q₂ : SharQueue} {op : IdeAdd} (hp : q.popIde = some (op, q₁))
    (h : RetriedIde q₁ op q₂) : q₂.ideRounds < q.ideRounds := by
  obtain ⟨rest, hl, rfl⟩ := popIde_eq hp
  rw [ideRounds_eq, ideRounds_eq, hl]
  cases h with
  | held hh =>
    cases hh with
    | untagged _ _ =>
      simp only [waitingTag, contents_push, Multiset.add_cons]
      exact rounds_deferred
    | repeated _ _ _ => exact rounds_settled rfl
    | early _ _ _ =>
      simp only [waitingIde, withTree, contents_push, Multiset.cons_add]
      exact rounds_deferred
  | landed _ => exact rounds_settled (queueIde_pending _ _)

theorem drainIde_idle {q : SharQueue} (hw : q.ideWorklist = []) :
    q.drainIdeWorklist = some q := by
  simp [SharQueue.drainIdeWorklist, drain, SharQueue.popIde, hw]

theorem popIde_none {q : SharQueue} (h : q.popIde = none) : q.ideWorklist = [] := by
  unfold SharQueue.popIde at h
  split at h
  · simp at h
  · assumption

abbrev IdeDraining : SharQueue → SharQueue → Prop := Draining SharQueue.popIde SharQueue.retryIde

section Drain

variable {J : SharQueue → Prop} {s : SharQueue}
  (hsound : ∀ p, J p → AllFiles Sound p.tree)
  (hstep : ∀ p item p₁ p₂, J p → IdeDraining s p → p.popIde = some (item, p₁) →
    RetriedIde p₁ item p₂ → J p₂)

include hsound

theorem popIde_sound {p p₁ : SharQueue} {item : IdeAdd} (hp : J p)
    (hpop : p.popIde = some (item, p₁)) : AllFiles Sound p₁.tree := by
  obtain ⟨rest, _, rfl⟩ := popIde_eq hpop
  exact hsound p hp

include hstep

theorem drainIde_keeps (hs : J s) {s' : SharQueue} (h : s.drainIdeWorklist = some s') :
    J s' ∧ s'.ideWorklist = [] := by
  obtain ⟨hd, hpop⟩ := drain_draining h
  refine ⟨?_, popIde_none hpop⟩
  have hpath : ∀ {p t : SharQueue}, IdeDraining p t → IdeDraining s p → J p → J t := by
    intro p t hpt
    induction hpt with
    | refl => exact fun _ hp => hp
    | @step p p₁ t u item hp ht _ ih =>
      intro hfrom hJ
      apply ih (hfrom.trans (.step hp ht (.refl t)))
      rcases retryIde_cases (popIde_sound hsound hJ hp) item with ⟨t', ht', hr⟩ | ⟨hnone, _⟩
      · rw [ht, Option.some.injEq] at ht'
        exact hstep p item p₁ t hJ hfrom hp (ht' ▸ hr)
      · rw [ht] at hnone
        exact absurd hnone (by simp)
  exact hpath hd (.refl _) hs

theorem drainIde_returns (hs : J s) (hsafe : ∀ p item p₁, J p → IdeDraining s p →
    p.popIde = some (item, p₁) → ¬ IdeCrashes p₁ item) : ∃ s', s.drainIdeWorklist = some s' := by
  have hround : ∀ p item p₁, J p ∧ IdeDraining s p → p.popIde = some (item, p₁) →
      ∃ p₂, p₁.retryIde item = some p₂ ∧ (J p₂ ∧ IdeDraining s p₂) ∧
        p₂.ideRounds < p.ideRounds := by
    rintro p item p₁ ⟨hp, hd⟩ hpop
    rcases retryIde_cases (popIde_sound hsound hp hpop) item with ⟨p₂, he, hr⟩ | ⟨_, hc⟩
    · exact ⟨p₂, he, ⟨hstep p item p₁ p₂ hp hd hpop hr, hd.trans (.step hpop he (.refl p₂))⟩,
        retryIde_rounds hpop hr⟩
    · exact absurd hc (hsafe p item p₁ hp hd hpop)
  obtain ⟨s', hs', _⟩ := drain_total hround ⟨hs, .refl _⟩ (Nat.lt_succ_self _)
  exact ⟨s', hs'⟩

end Drain

/-- The queue in which the add `op` is tried: its tag is known, and what waited for the tag
is on the worklist. -/
def enlisted (q : SharQueue) (op : IdeAdd) (n : ℕ) : SharQueue :=
  (q.confirmIde op.tag n).queueTagBacklog op.tag

/-- `item` is tried in the queue `p` while the IDE add `op` is applied. -/
inductive TriedIn (q : SharQueue) (op : IdeAdd) : SharQueue → IdeAdd → Prop where
  | own {n} : tick q.counter = some n → TriedIn q op (enlisted q op n) op
  | woken {n x parent pos t p p' item} : tick q.counter = some n →
      Lands (enlisted q op n) op x parent pos t →
      IdeDraining ((withTree (enlisted q op n) t).queueIdeBacklog x) p' →
      p'.popIde = some (item, p) → TriedIn q op p item
  | later {n q₁ p p' item} : tick q.counter = some n →
      (enlisted q op n).addIdeOperationInner op SharQueue.clearIdeBacklog = some q₁ →
      IdeDraining q₁ p' → p'.popIde = some (item, p) → TriedIn q op p item

@[simp] theorem enlisted_tree (q : SharQueue) (op : IdeAdd) (n : ℕ) :
    (enlisted q op n).tree = q.tree := by
  unfold enlisted SharQueue.queueTagBacklog
  split <;> rfl

section Enlisted

variable (q : SharQueue) (op o : IdeAdd) (n tag : ℕ)

@[simp] theorem enlisted_peer : (enlisted q op n).peer = q.peer := by
  unfold enlisted SharQueue.queueTagBacklog
  split <;> rfl

@[simp] theorem enlisted_backlog : (enlisted q op n).ideBacklog = q.ideBacklog := by
  unfold enlisted SharQueue.queueTagBacklog
  split <;> rfl

theorem enlisted_tagTight (h : Tight q.ideTagBacklog) : Tight (enlisted q op n).ideTagBacklog := by
  unfold enlisted SharQueue.queueTagBacklog
  split
  · exact tight_erase h
  · exact h

theorem enlisted_tagWaits : Waits (enlisted q op n).ideTagBacklog tag o ↔
    Waits q.ideTagBacklog tag o ∧ tag ≠ op.tag := by
  unfold enlisted SharQueue.queueTagBacklog
  split
  · exact waits_erase
  · rename_i hl
    constructor
    · rintro ⟨l, hk, hi⟩
      refine ⟨⟨l, hk, hi⟩, ?_⟩
      rintro rfl
      have hk' : (q.confirmIde op.tag n).ideTagBacklog.lookup op.tag = some l := hk
      rw [hl] at hk'
      exact absurd hk' (by simp)
    · exact fun h => h.1

theorem enlisted_worklist : o ∈ (enlisted q op n).ideWorklist ↔
    o ∈ q.ideWorklist ∨ Waits q.ideTagBacklog op.tag o := by
  unfold enlisted SharQueue.queueTagBacklog
  split
  · rename_i l hl
    have hl' : q.ideTagBacklog.lookup op.tag = some l := hl
    simp [Waits, hl', SharQueue.confirmIde, SharQueue.fire]
  · rename_i hl
    have hl' : q.ideTagBacklog.lookup op.tag = none := hl
    simp [Waits, hl', SharQueue.confirmIde, SharQueue.fire]

end Enlisted

theorem clearIde_eq {q : SharQueue} (x : Identity) :
    q.clearIdeBacklog x = (q.queueIdeBacklog x).drainIdeWorklist ∨
      q.clearIdeBacklog x = some (q.queueIdeBacklog x) := by
  unfold SharQueue.clearIdeBacklog
  cases hl : q.ideBacklog.lookup x with
  | some l => exact Or.inl rfl
  | none =>
    apply Or.inr
    simp [SharQueue.queueIdeBacklog, hl]

theorem unfired {J : SharQueue → Prop} (hlog : ∀ p l, J p → J (unlogged p l)) {p : SharQueue}
    {c : Callback} (h : J (p.fire c)) : J p := hlog (p.fire c) p.fired h

section Calls

variable {J : SharQueue → Prop} {q : SharQueue} {op : IdeAdd}
  (hsound : ∀ p, J p → AllFiles Sound p.tree)
  (hshow : ∀ p a b, J p → J (p.fire (.ideAdd a b)))
  (hheld : ∀ n q', tick q.counter = some n → Held (enlisted q op n) op q' → J q')
  (hopen : ∀ n x parent pos t, tick q.counter = some n → Lands (enlisted q op n) op x parent pos t →
    J ((withTree (enlisted q op n) t).queueIdeBacklog x))
  (hstep : ∀ p item p₁ p₂, J p → p.popIde = some (item, p₁) → TriedIn q op p₁ item →
    RetriedIde p₁ item p₂ → J p₂)

include hsound hshow hheld hopen hstep

/-- The rule for an IDE add that returns, whose own entry in the log comes last. -/
theorem addIde_invariant (hs : AllFiles Sound q.tree) {q' : SharQueue}
    (h : q.addIdeOperation op = some q') : J q' ∧ q'.ideWorklist = [] := by
  simp only [SharQueue.addIdeOperation, Option.bind_eq_bind, Option.bind_eq_some_iff] at h
  obtain ⟨n, hn, q₁, hq₁, h⟩ := h
  have hinner : (enlisted q op n).addIdeOperationInner op SharQueue.clearIdeBacklog = some q₁ := hq₁
  suffices hJ : J q₁ from
    drainIde_keeps hsound (fun p item p₁ p₂ hp hd hpop hr =>
      hstep p item p₁ p₂ hp hpop (.later hn hinner hd hpop) hr) hJ h
  have hs' : AllFiles Sound (enlisted q op n).tree := by
    rw [enlisted_tree]
    exact hs
  rcases ide_inner_cases hs' op with ⟨q₂, hh, he⟩ | ⟨x, parent, pos, t, hl, he⟩ | ⟨_, he⟩
  · rw [he, Option.some.injEq] at hinner
    exact hinner ▸ hheld n q₂ hn hh
  · rw [he, Option.map_eq_some_iff] at hinner
    obtain ⟨q₂, hq₂, rfl⟩ := hinner
    apply hshow
    rcases clearIde_eq x with hc | hc
    · rw [hc] at hq₂
      exact (drainIde_keeps hsound (fun p item p₁ p₂ hp hd hpop hr =>
        hstep p item p₁ p₂ hp hpop (.woken hn hl hd hpop) hr) (hopen n x parent pos t hn hl) hq₂).1
    · rw [hc, Option.some.injEq] at hq₂
      exact hq₂ ▸ hopen n x parent pos t hn hl
  · rw [he] at hinner
    exact absurd hinner (by simp)

end Calls

section Unlogged

variable {J : SharQueue → Prop} {q : SharQueue} {op : IdeAdd}
  (hsound : ∀ p, J p → AllFiles Sound p.tree)
  (hlog : ∀ p l, J p → J (unlogged p l))
  (hfirst : ∀ n q', tick q.counter = some n → RetriedIde (enlisted q op n) op q' → J q')
  (hstep : ∀ p item p₁ p₂, J p → p.popIde = some (item, p₁) → TriedIn q op p₁ item →
    RetriedIde p₁ item p₂ → J p₂)

include hsound hlog hfirst hstep

theorem addIde_keeps (hs : AllFiles Sound q.tree) {q' : SharQueue}
    (h : q.addIdeOperation op = some q') : J q' ∧ q'.ideWorklist = [] :=
  addIde_invariant hsound (fun p _ _ hp => hlog p _ hp) (fun n q' hn hh => hfirst n q' hn (.held hh))
    (fun n _ _ _ _ hn hl => unfired hlog (hfirst n _ hn (.landed hl))) hstep hs h

end Unlogged

end IdeSteps
