import Shario.Sessions

/-! The adds that wait, in any run of the four entry points: each has its tag registered, names
a parent, and stands under the parent it has, unless no tag stands for its key any more. No IDE
add panics, but on the counter. -/
namespace EnrolledAdds

open CrdtTypes FileTree FilePlacement FileSafety DirectoryTree ShareQueue WorklistDrain TreeCalls
  QueueSteps IdeSteps QueueRuns NewIdentities Sessions

/-- A tag stood for `k` once, and none does now. -/
def Retired (q : SharQueue) (k : Identity) : Prop :=
  k.1 ≤ q.counter ∧ ∀ tag, q.tagIdentities.lookup tag ≠ some k

structure Enrolled (hand : Option IdeAdd) (q : SharQueue) : Prop where
  named : ∀ op, HeldIn q hand op → NamesParent op ∧ ∃ x, q.tagIdentities.lookup op.tag = some x
  tagKeyed : ∀ tag op, Waits q.ideTagBacklog tag op → tagOf op = some tag
  keyed : ∀ k op, Waits q.ideBacklog k op → q.ideParent op = some k ∨ Retired q k
  given : ∀ tag x, q.tagIdentities.lookup tag = some x → x.1 ≤ q.counter
  distinct : ∀ tag tag' x, q.tagIdentities.lookup tag = some x →
    q.tagIdentities.lookup tag' = some x → tag = tag'

section Steps

variable {q q' : SharQueue} {hand hand' : Option IdeAdd} {op : IdeAdd} {x p : Identity} {n : ℕ}

theorem names_of_parent (h : q.ideParent op = some p) : NamesParent op := by
  rcases naming_cases op with ⟨id, peer, hid, hpeer, _⟩ | ⟨hby, _⟩
  · exact Or.inl ⟨id, peer, hid, hpeer⟩
  · rw [(by_tag q q [] (s := ⟨0, op⟩) hby).2, Option.bind_eq_some_iff] at h
    obtain ⟨tag, htag, _⟩ := h
    exact Or.inr ⟨tag, htag⟩

theorem enrolled_moved (h : Enrolled hand q) (htags : q'.tagIdentities = q.tagIdentities)
    (hcounter : q.counter ≤ q'.counter) (hback : ∀ op, HeldIn q' hand' op → HeldIn q hand op)
    (htagKeyed : ∀ tag op, Waits q'.ideTagBacklog tag op → tagOf op = some tag)
    (hkeyed : ∀ k op, Waits q'.ideBacklog k op →
      Waits q.ideBacklog k op ∨ q.ideParent op = some k) : Enrolled hand' q' where
  named := fun op ho => by
    rw [htags]
    exact h.named op (hback op ho)
  tagKeyed := htagKeyed
  keyed := fun k op hw => by
    rw [ideParent_congr htags]
    have hkey : q.ideParent op = some k ∨ Retired q k := by
      rcases hkeyed k op hw with hw | hp
      · exact h.keyed k op hw
      · exact Or.inl hp
    refine hkey.imp_right fun hret => ⟨hret.1.trans hcounter, ?_⟩
    rw [htags]
    exact hret.2
  given := fun tag x hx => (h.given tag x (htags ▸ hx)).trans hcounter
  distinct := by
    rw [htags]
    exact h.distinct

theorem enrolled_popped {q₁ : SharQueue} (h : Enrolled none q)
    (hpop : q.popIde = some (op, q₁)) : Enrolled (some op) q₁ := by
  have hheld := held_popped hpop
  obtain ⟨rest, hl, rfl⟩ := popIde_eq hpop
  exact enrolled_moved h rfl le_rfl (fun o ho => (hheld o).mp ho) h.tagKeyed
    fun k o hw => Or.inl hw

theorem held_any (h : HeldIn q none op) : HeldIn q hand op :=
  Or.inr (h.resolve_left (by simp))

theorem held_landed {t : SharDirectory} (o : IdeAdd)
    (h : HeldIn ((withTree q t).queueIdeBacklog x) none o) : HeldIn q none o := by
  rcases h with h | h | ⟨tag, hw⟩ | ⟨k, hw⟩
  · exact absurd h (by simp)
  · rcases (queueIde_worklist _ _ _).mp h with h | hw
    · exact Or.inr (Or.inl h)
    · exact Or.inr (Or.inr (Or.inr ⟨_, hw⟩))
  · rw [queueIde_tagBacklog] at hw
    exact Or.inr (Or.inr (Or.inl ⟨tag, hw⟩))
  · exact Or.inr (Or.inr (Or.inr ⟨k, ((queueIde_backlog _ _ _ _).mp hw).1⟩))

theorem enrolled_landed {t : SharDirectory} (h : Enrolled (some op) q) :
    Enrolled none ((withTree q t).queueIdeBacklog x) := by
  refine enrolled_moved h (queueIde_tags _ _) (queueIde_counter (withTree q t) x).ge
    (fun o ho => held_any (held_landed o ho)) (fun tag o hw => ?_)
    fun k o hw => Or.inl ((queueIde_backlog _ _ _ _).mp hw).1
  rw [queueIde_tagBacklog] at hw
  exact h.tagKeyed tag o hw

theorem held_back (hh : Held q op q') (o : IdeAdd) (ho : HeldIn q' none o) :
    HeldIn q (some op) o := by
  cases hh with
  | untagged _ _ =>
    rcases ho with ho | ho | ⟨tag, hw⟩ | hw
    · exact absurd ho (by simp)
    · exact Or.inr (Or.inl ho)
    · rcases waits_push.mp hw with hw | ⟨_, rfl⟩
      · exact Or.inr (Or.inr (Or.inl ⟨tag, hw⟩))
      · exact Or.inl rfl
    · exact Or.inr (Or.inr (Or.inr hw))
  | repeated _ _ _ => exact Or.inr (ho.resolve_left (by simp))
  | early _ _ _ =>
    rcases ho with ho | ho | hw | ⟨k, hw⟩
    · exact absurd ho (by simp)
    · exact Or.inr (Or.inl ho)
    · exact Or.inr (Or.inr (Or.inl hw))
    · rcases waits_push.mp hw with hw | ⟨_, rfl⟩
      · exact Or.inr (Or.inr (Or.inr ⟨k, hw⟩))
      · exact Or.inl rfl

theorem enrolled_held (h : Enrolled (some op) q) (hh : Held q op q') : Enrolled none q' := by
  have hback := held_back hh
  cases hh with
  | untagged hp ht =>
    refine enrolled_moved h rfl le_rfl hback (fun tag o hw => ?_) fun k o hw => Or.inl hw
    rcases waits_push.mp hw with hw | ⟨rfl, rfl⟩
    · exact h.tagKeyed tag o hw
    · exact tagOf_of_waiting hp ht
  | repeated _ _ _ =>
    exact enrolled_moved h rfl le_rfl hback h.tagKeyed fun k o hw => Or.inl hw
  | early hp _ _ =>
    refine enrolled_moved h rfl le_rfl hback h.tagKeyed fun k o hw => ?_
    rcases waits_push.mp hw with hw | ⟨rfl, rfl⟩
    · exact Or.inl hw
    · exact Or.inr hp

theorem enrolled_shown (h : Enrolled hand q) (c : Callback) : Enrolled hand (q.fire c) :=
  enrolled_moved h rfl le_rfl (fun _ ho => ho) h.tagKeyed fun _ _ hw => Or.inl hw

theorem enrolled_retried (h : Enrolled (some op) q) (hr : RetriedIde q op q') :
    Enrolled none q' := by
  cases hr with
  | held hh => exact enrolled_held h hh
  | landed _ => exact enrolled_shown (enrolled_landed h) _

theorem enrolled_safe (h : Enrolled (some op) q) : ¬ IdeCrashes q op := by
  obtain ⟨hnames, x, hx⟩ := h.named op (Or.inl rfl)
  rintro (⟨hp, ht⟩ | ⟨_, hx'⟩)
  · obtain ⟨tag, htag⟩ := names_tag hnames hp
    rw [ht] at htag
    exact absurd htag (by simp)
  · rw [hx] at hx'
    exact absurd hx' (by simp)

end Steps

section Received

variable {q : SharQueue} {op : IdeAdd}

theorem enlisted_lookup {tag : ℕ} {x : Identity} (hx : x.1 ≤ q.counter) :
    (enlisted q op (q.counter + 1)).tagIdentities.lookup tag = some x ↔
      q.tagIdentities.lookup tag = some x ∧ tag ≠ op.tag := by
  rw [enlisted_tags]
  by_cases ht : tag = op.tag
  · subst ht
    rw [Finmap.lookup_insert, Option.some.injEq]
    have hne : (q.counter + 1, q.peer) ≠ x := by
      rintro rfl
      simp at hx
    simp [hne]
  · rw [Finmap.lookup_insert_of_ne _ ht]
    simp [ht]

theorem held_enlisted (o : IdeAdd) (h : HeldIn (enlisted q op (q.counter + 1)) none o) :
    HeldIn q none o := by
  rcases h with h | h | ⟨tag, hw⟩ | ⟨k, hw⟩
  · exact absurd h (by simp)
  · rcases (enlisted_worklist _ _ _ _).mp h with h | hw
    · exact Or.inr (Or.inl h)
    · exact Or.inr (Or.inr (Or.inl ⟨_, hw⟩))
  · exact Or.inr (Or.inr (Or.inl ⟨tag, ((enlisted_tagWaits _ _ _ _ _).mp hw).1⟩))
  · rw [enlisted_backlog] at hw
    exact Or.inr (Or.inr (Or.inr ⟨k, hw⟩))

theorem enlisted_keyed (h : Enrolled none q) {k : Identity} {o : IdeAdd}
    (hw : Waits q.ideBacklog k o) :
    (enlisted q op (q.counter + 1)).ideParent o = some k ∨
      Retired (enlisted q op (q.counter + 1)) k := by
  have hretired : k.1 ≤ q.counter → (∀ tag, q.tagIdentities.lookup tag = some k → tag = op.tag) →
      Retired (enlisted q op (q.counter + 1)) k := by
    refine fun hk hall => ⟨?_, fun tag hx => ?_⟩
    · rw [enlisted_counter]
      omega
    · obtain ⟨hx, hne⟩ := (enlisted_lookup hk).mp hx
      exact hne (hall tag hx)
  rcases h.keyed k o hw with hp | hret
  · cases htag : tagOf o with
    | none =>
      left
      rw [(parent_untagged q q (enlisted q op (q.counter + 1)) [] [] (s := ⟨0, o⟩) htag).1]
      exact hp
    | some tag =>
      have hl : q.tagIdentities.lookup tag = some k := by
        rw [← (meant_of_tagOf q q [] ⟨0, o⟩ htag).2]
        exact hp
      by_cases ht : tag = op.tag
      · -- The new add has taken the tag of the parent.
        right
        refine hretired (h.given tag k hl) fun tag' hl' => ?_
        rw [h.distinct tag' tag k hl' hl, ht]
      · left
        rw [(meant_of_tagOf q (enlisted q op (q.counter + 1)) [] ⟨0, o⟩ htag).2]
        exact (enlisted_lookup (h.given tag k hl)).mpr ⟨hl, ht⟩
  · exact Or.inr (hretired hret.1 fun tag hl => absurd hl (hret.2 tag))

theorem enrolled_enlisted (h : Enrolled none q) :
    Enrolled none (enlisted q op (q.counter + 1)) := by
  have hcounter : (enlisted q op (q.counter + 1)).counter = q.counter + 1 := enlisted_counter _ _ _
  refine ⟨fun o ho => ?_, fun tag o hw => ?_, fun k o hw => ?_, fun tag x hx => ?_,
    fun tag tag' x hx hx' => ?_⟩
  · obtain ⟨hnames, x, hx⟩ := h.named o (held_enlisted o ho)
    refine ⟨hnames, ?_⟩
    rw [enlisted_tags]
    by_cases ht : o.tag = op.tag
    · exact ⟨_, by rw [ht, Finmap.lookup_insert]⟩
    · exact ⟨x, by rw [Finmap.lookup_insert_of_ne _ ht, hx]⟩
  · exact h.tagKeyed tag o ((enlisted_tagWaits _ _ _ _ _).mp hw).1
  · rw [enlisted_backlog] at hw
    exact enlisted_keyed h hw
  · rw [hcounter]
    rw [enlisted_tags] at hx
    by_cases ht : tag = op.tag
    · rw [ht, Finmap.lookup_insert, Option.some.injEq] at hx
      rw [← hx]
    · rw [Finmap.lookup_insert_of_ne _ ht] at hx
      exact (h.given tag x hx).trans (Nat.le_succ _)
  · by_cases hle : x.1 ≤ q.counter
    · exact h.distinct tag tag' x ((enlisted_lookup hle).mp hx).1 ((enlisted_lookup hle).mp hx').1
    · have hown : ∀ tag, (enlisted q op (q.counter + 1)).tagIdentities.lookup tag = some x →
          tag = op.tag := by
        intro tag hx
        by_contra ht
        rw [enlisted_tags, Finmap.lookup_insert_of_ne _ ht] at hx
        exact hle (h.given tag x hx)
      rw [hown tag hx, hown tag' hx']

theorem enrolled_received (h : Enrolled none q) (hnames : NamesParent op) :
    Enrolled (some op) (enlisted q op (q.counter + 1)) := by
  have he : Enrolled none (enlisted q op (q.counter + 1)) := enrolled_enlisted h
  refine { he with named := fun o ho => ?_ }
  rcases ho with ho | ho
  · rw [Option.some.injEq] at ho
    subst ho
    exact ⟨hnames, _, by rw [enlisted_tags, Finmap.lookup_insert]⟩
  · exact he.named o (Or.inr ho)

end Received

section Runs

variable {q q' : SharQueue} {item : NetworkOp} {op : IdeAdd} {r : Remove} {calls : List QueueCall}

theorem enrolled_aside (h : Enrolled none q) (hw : q'.ideWorklist = q.ideWorklist)
    (hb : q'.ideBacklog = q.ideBacklog) (htb : q'.ideTagBacklog = q.ideTagBacklog)
    (htags : q'.tagIdentities = q.tagIdentities) (hc : q.counter ≤ q'.counter) :
    Enrolled none q' := by
  refine enrolled_moved h htags hc (fun o ho => ?_) (fun tag o hw => h.tagKeyed tag o (htb ▸ hw))
    fun k o hw => Or.inl (hb ▸ hw)
  simp only [HeldIn, Waiting, hw, hb, htb] at ho
  exact ho

theorem deliver_enrolled (hs : AllFiles Sound q.tree) (hidle : Idle q) (h : Enrolled none q)
    (hd : deliver q item = some q') : Enrolled none q' := by
  refine (deliver_keeps (J := fun p => AllFiles Sound p.tree ∧ Enrolled none p)
    (fun p hp => hp.1) (fun p i p₁ p₂ hp hpop _ hr => ?_) hidle.network
    ⟨hs, enrolled_aside h rfl rfl rfl rfl le_rfl⟩ hd).1.2
  obtain ⟨rest, _, rfl⟩ := pop_eq hpop
  obtain ⟨hb, htb, htags⟩ := retried_ideSide hr
  have hp₁ : Enrolled none { p with networkWorklist := rest } :=
    enrolled_aside hp.2 rfl rfl rfl rfl le_rfl
  have hcounter := retried_counter hr
  refine ⟨retried_keeps (P := AllFiles Sound) (fun _ _ _ _ _ hs ha => ha.sound hs)
    (fun _ _ _ _ _ hs hx hr => hr.sound hx hs) (q := { p with networkWorklist := rest }) hp.1 hr,
    enrolled_aside hp₁ (retried_ide hr) hb htb htags ?_⟩
  rw [hcounter]
  exact raise_le _ _

theorem addIde_enrolled (hs : AllFiles Sound q.tree) (h : Enrolled none q)
    (ha : q.addIdeOperation op = some q') : Enrolled none q' := by
  have hfirst : ∀ n, tick q.counter = some n → NamesParent op →
      AllFiles Sound (enlisted q op n).tree ∧ Enrolled (some op) (enlisted q op n) := by
    intro n hn hnames
    obtain rfl := (tick_eq_some.mp hn).2
    rw [enlisted_tree]
    exact ⟨hs, enrolled_received h hnames⟩
  have hadd : ∀ (t : SharDirectory) path c o u, AllFiles Sound t → TreeAdded t path c o u →
      AllFiles Sound u := fun _ _ _ _ _ hs ha => ha.sound hs
  refine (addIde_invariant (J := fun p => AllFiles Sound p.tree ∧ Enrolled none p)
    (fun p hp => hp.1) (fun p a b hp => ⟨hp.1, enrolled_shown hp.2 _⟩) (fun n p hn hh => ?_)
    (fun n x parent pos t hn hl => ?_) (fun p i p₁ p₂ hp hpop _ hr => ?_) hs ha).1.2
  · have hnames : NamesParent op := by
      cases hh with
      | untagged _ ht => exact Or.inr ⟨_, ht⟩
      | repeated hp _ _ => exact names_of_parent hp
      | early hp _ _ => exact names_of_parent hp
    obtain ⟨hs', he⟩ := hfirst n hn hnames
    exact ⟨retriedIde_keeps hadd hs' (.held hh), enrolled_held he hh⟩
  · obtain ⟨hs', he⟩ := hfirst n hn (names_of_parent hl.resolved)
    rw [queueIde_tree]
    exact ⟨hl.added.sound hs', enrolled_landed he⟩
  · obtain ⟨rest, _, rfl⟩ := popIde_eq hpop
    exact ⟨retriedIde_keeps hadd (q := { p with ideWorklist := rest }) hp.1 hr,
      enrolled_retried (enrolled_popped hp.2 hpop) hr⟩

theorem call_enrolled {call : QueueCall} (hs : AllFiles Sound q.tree) (hidle : Idle q)
    (h : Enrolled none q) (hc : call.apply q = some q') : Enrolled none q' := by
  cases call with
  | network item => exact deliver_enrolled hs hidle h hc
  | ideAdd op => exact addIde_enrolled hs h hc
  | ideRemove op =>
    rcases removeIde_cases hs op with ⟨q₁, he, hr⟩ | ⟨he, _⟩
    · obtain rfl : q₁ = q' := Option.some.inj (he.symm.trans hc)
      cases hr with
      | rootRemove _ => exact h
      | fallen _ _ => exact enrolled_aside h rfl rfl rfl rfl le_rfl
      | again _ _ => exact enrolled_aside h rfl rfl rfl rfl le_rfl
      | early _ _ => exact enrolled_aside h rfl rfl rfl rfl le_rfl
    · exact absurd (he.symm.trans hc) (by simp)

theorem run_enrolled (hs : AllFiles Sound q.tree) (hidle : Idle q) (h : Enrolled none q)
    (hrun : calls.foldlM QueueCall.apply q = some q') :
    Enrolled none q' ∧ AllFiles Sound q'.tree ∧ Idle q' := by
  induction calls generalizing q with
  | nil =>
    cases hrun
    exact ⟨h, hs, hidle⟩
  | cons call calls ih =>
    rw [List.foldlM_cons, Option.bind_eq_bind, Option.bind_eq_some_iff] at hrun
    obtain ⟨q₁, hq₁, hrun⟩ := hrun
    obtain ⟨hs₁, hidle₁⟩ := call_keeps (P := AllFiles Sound) (fun _ h => h)
      (fun _ _ _ _ _ hs ha => ha.sound hs) (fun _ _ _ _ _ hs hx hr => hr.sound hx hs) hidle hs hq₁
    exact ih hs₁ hidle₁ (call_enrolled hs hidle h hq₁) hrun

theorem loaded_enrolled {dirPath : PathBuf} {read : Except String (List FsEntry)} {peer : ℕ}
    (hl : SharQueue.new dirPath read peer = some (.ok q)) : Enrolled none q := by
  obtain ⟨_, _, hq⟩ := PathRouting.new_tree hl
  rw [hq]
  refine ⟨fun op ho => ?_, fun tag op hw => ?_, fun k op hw => ?_, fun tag x hx => ?_,
    fun tag tag' x hx _ => ?_⟩
  · rcases ho with ho | ho | ⟨tag, l, hl, _⟩ | ⟨k, l, hl, _⟩
    · simp at ho
    · simp at ho
    · simp at hl
    · simp at hl
  · obtain ⟨l, hl, _⟩ := hw
    simp at hl
  · obtain ⟨l, hl, _⟩ := hw
    simp at hl
  · simp at hx
  · simp at hx

end Runs

end EnrolledAdds
