import Shario.Sessions

/-! Tags of different connections: the queue has one table for all of them, so an add keeps
its own parent and its own identity as long as no other connection uses its tags. -/
namespace PrivateTags

open CrdtTypes FileTree DirectoryTree ShareQueue NetworkDelivery QueueRuns Sessions

/-- Each add is in the tree under the identity that was confirmed for it and below the parent
that its own connection means, once the parents have arrived. -/
structure Private (q₀ : SharQueue) (calls : List Sent) (q : SharQueue) : Prop where
  confirmed : q.fired.filterMap confirmedOf =
    calls.mapIdx fun i s => ⟨s.op.tag, (given q₀ i).1, (given q₀ i).2⟩
  inserted : ∀ ref x rel, Holds q ref x rel → Holds q₀ ref x rel ∨ Typed q₀ calls ref x rel
  arrived : ∀ ref x, Arrived q₀ calls ref x → Known q ref x

theorem private_of_clear {dirPath : PathBuf} {read : Except String (List FsEntry)} {peer : ℕ}
    {q₀ q : SharQueue} {calls : List Sent} (hl : SharQueue.new dirPath read peer = some (.ok q₀))
    (hd : DistinctTags calls) (hclear : ClearRun q₀ calls)
    (hrun : calls.foldlM receive q₀ = some q) : Private q₀ calls q := by
  obtain ⟨h₀, hw₀⟩ := loaded_typing hl
  obtain ⟨h, hw⟩ := run_typing h₀ hw₀ hd hclear hrun
  exact ⟨h.confirmed, h.sourced, fun ref x hx => arrived_known h hw hx⟩

def onFile (parentId parentPeer parentTag : Option ℕ) (val : Char) (tag : ℕ) : IdeAdd :=
  ⟨[.rootDir, .normal "s", .normal "f"], parentId, parentPeer, parentTag, val, tag, 0⟩

def ofFirst : Sent := ⟨1, onFile (some 0) (some 0) none 'a' 1⟩

def ofSecond : Sent := ⟨2, onFile (some 0) (some 0) none 'b' 1⟩

/-- An add whose parent is the sender's add under tag 1. -/
def next (conn : ℕ) : Sent := ⟨conn, onFile none none (some 1) 'c' 2⟩

def aboveRoot : Characters := noChars.insert (1, 5) (.new 'a' 0 0)

/-- The queue after the add of the first connection, and after that of the second. -/
def afterFirst (log : List Callback) : SharQueue :=
  { oneFile "s" 5 aboveRoot [[root, (1, 5)]] 1 log with tagIdentities := Finmap.insert 1 (1, 5) ∅ }

def afterSecond (log : List Callback) : SharQueue :=
  { oneFile "s" 5 (aboveRoot.insert (2, 5) (.new 'b' 0 0)) [[root, (2, 5), (1, 5)]] 2 log with
    tagIdentities := Finmap.insert 1 (2, 5) (Finmap.insert 1 (1, 5) ∅) }

theorem both_received : ∃ log log', receive (oneFile "s" 5 noChars [[root]] 0 []) ofFirst =
    some (afterFirst log) ∧ receive (afterFirst log) ofSecond = some (afterSecond log') := by
  have h₁ : ∃ log, receive (oneFile "s" 5 noChars [[root]] 0 []) ofFirst = some (afterFirst log) :=
    ⟨_, rfl⟩
  obtain ⟨log, h₁⟩ := h₁
  have h₂ : ∃ log', receive (afterFirst log) ofSecond = some (afterSecond log') := ⟨_, rfl⟩
  obtain ⟨log', h₂⟩ := h₂
  exact ⟨log, log', h₁, h₂⟩

def afterNext (log : List Callback) (tags : HashMap ℕ Identity) : SharQueue :=
  { oneFile "s" 5 ((aboveRoot.insert (2, 5) (.new 'b' 0 0)).insert (3, 5) (.new 'c' 2 5))
      [[root, (2, 5), (3, 5), (1, 5)]] 3 log with tagIdentities := tags }

theorem next_received (log : List Callback) (conn : ℕ) : ∃ log' tags,
    receive (afterSecond log) (next conn) = some (afterNext log' tags) := ⟨_, _, rfl⟩

theorem private_of_clear_last : ∃ q₀ q, SharQueue.new [.rootDir, .normal "s"] emptyEntries 5 =
    some (.ok q₀) ∧ [ofFirst, ofSecond, next 2].foldlM receive q₀ = some q ∧
    Private q₀ [ofFirst, ofSecond, next 2] q := by
  obtain ⟨log, log', h₁, h₂⟩ := both_received
  obtain ⟨log₃, tags, h₃⟩ := next_received log' 2
  have hl : SharQueue.new [.rootDir, .normal "s"] emptyEntries 5 =
      some (.ok (oneFile "s" 5 noChars [[root]] 0 [])) := rfl
  generalize hq₀ : oneFile "s" 5 noChars [[root]] 0 [] = q₀ at h₁ hl
  have hw₀ : q₀.ideBacklog = ∅ ∧ q₀.ideTagBacklog = ∅ := hq₀ ▸ ⟨rfl, rfl⟩
  have hw₁ : (afterFirst log).ideBacklog = ∅ ∧ (afterFirst log).ideTagBacklog = ∅ := ⟨rfl, rfl⟩
  have hw₂ : (afterSecond log').ideBacklog = ∅ ∧ (afterSecond log').ideTagBacklog = ∅ := ⟨rfl, rfl⟩
  have htag : (afterSecond log').tagIdentities.lookup 1 = some (given q₀ 1) := hq₀ ▸ rfl
  have hrun : [ofFirst, ofSecond, next 2].foldlM receive q₀ = some (afterNext log₃ tags) := by
    simp [h₁, h₂, h₃]
  have hclear : ∀ {pre p s}, p.ideBacklog = ∅ ∧ p.ideTagBacklog = ∅ →
      (∀ (i : ℕ) (a : Sent), pre[i]? = some a → Owns q₀ p i a.op → tagOf s.op = some a.op.tag →
        a.conn = s.conn) → Clear q₀ pre p s := fun hp hpar =>
    ⟨fun op hop => absurd hop (none_waiting hp.1 hp.2 op),
      fun i a _ hop => absurd hop (none_waiting hp.1 hp.2 a.op),
      fun i a ha hown ht _ => hpar i a ha hown ht⟩
  refine ⟨q₀, _, hl, hrun, private_of_clear hl (distinct_of_nodup (by decide)) ?_ hrun⟩
  intro pre s post p he hpre
  rcases pre with _ | ⟨a, _ | ⟨b, _ | ⟨c, pre⟩⟩⟩
  · cases hpre
    exact hclear hw₀ (by simp)
  · simp only [List.cons_append, List.nil_append, List.cons.injEq] at he
    obtain ⟨rfl, rfl, rfl⟩ := he
    have hp : p = afterFirst log := by simpa [h₁] using hpre.symm
    exact hp ▸ hclear hw₁ fun _ _ _ _ ht => absurd ht (by simp [tagOf, ofSecond, onFile])
  · simp only [List.cons_append, List.nil_append, List.cons.injEq] at he
    obtain ⟨rfl, rfl, rfl, rfl⟩ := he
    have hp : p = afterSecond log' := by simpa [h₁, h₂] using hpre.symm
    subst hp
    refine hclear hw₂ fun i a ha hown ht => ?_
    have hi : given q₀ i = given q₀ 1 := by
      rw [Owns, show a.op.tag = 1 from (Option.some.inj ht).symm, htag] at hown
      exact (Option.some.inj hown).symm
    obtain rfl := given_inj hi
    simp only [List.getElem?_cons_succ, List.getElem?_cons_zero, Option.some.injEq] at ha
    rw [← ha]
    rfl
  · have hlen := congrArg List.length he
    simp at hlen

/-- The tag of the second connection takes over that of the first. -/
theorem tag_taken_over : ¬ ∀ (dirPath : PathBuf) (read : Except String (List FsEntry)) (peer : ℕ)
    (q₀ q : SharQueue) (calls : List Sent), SharQueue.new dirPath read peer = some (.ok q₀) →
    DistinctTags calls → calls.foldlM receive q₀ = some q → Private q₀ calls q := by
  intro h
  obtain ⟨log, log', h₁, h₂⟩ := both_received
  obtain ⟨log₃, tags, h₃⟩ := next_received log' 1
  have hq : ∃ q₀ q, SharQueue.new [.rootDir, .normal "s"] emptyEntries 5 = some (.ok q₀) ∧
      [ofFirst, ofSecond, next 1].foldlM receive q₀ = some q ∧
      Holds q ([], 0) (3, 5) (.new 'c' 2 5) ∧ ¬ Known q₀ ([], 0) (3, 5) ∧
      meant q₀ [ofFirst, ofSecond, next 1] (next 1) = some (1, 5) ∧ q₀.counter = 0 := by
    refine ⟨oneFile "s" 5 noChars [[root]] 0 [], afterNext log₃ tags, rfl, by simp [h₁, h₂, h₃],
      ⟨_, rfl, .new 'c' 2 5, rfl, rfl⟩, ?_, rfl, rfl⟩
    rintro ⟨f, hf, hx⟩
    obtain rfl := Option.some.inj hf
    exact absurd hx (by decide)
  obtain ⟨q₀, q, hl, hrun, hholds, hnew, hmeant, hc⟩ := hq
  have hp := h _ _ _ q₀ q _ hl (distinct_of_nodup (by decide)) hrun
  rcases hp.inserted _ _ _ hholds with h₀ | ⟨i, a, p, ha, hx, _, hm, hrel⟩
  · exact hnew (known_iff_holds.mpr ⟨_, h₀⟩)
  · have hi : i = 2 := by
      simp only [given, Prod.mk.injEq] at hx
      omega
    subst hi
    obtain rfl : next 1 = a := Option.some.inj ha
    rw [hmeant, Option.some.injEq] at hm
    rw [← hm] at hrel
    exact absurd hrel (by decide)

end PrivateTags
