import Shario.FlatText
import Shario.SocketBench

/-! The client of the socket benchmark shows the text of the in-process benchmark, in whatever
order its messages are handled. It stays one document with its queue as long as no message
overtakes another: whatever is under way, the mirror is what the queue will have once it has
handled all messages, those that the mirror still keeps back included. -/
namespace SocketRuns

open CrdtTypes FileTree CharacterTree FileSafety FileShape DirectoryTree ShareQueue TreeCalls
  QueueSteps QueueRuns TextSplices Sessions DocMirror SocketBench
open BenchMirror (Bench document Quiet Mirroring Matched Mirrors PlainBreaks InRange isInsert
  confirmed insert_step remove_step behind_first)
open FlatClient (insertAfter deleteFrom insertAfter_middle deleteFrom_middle)
open FlatText (currentText mirrorText mirrorRows onText in_range_text bench_text client_text
  confirmAdd_rows)
open PeerSession (Edit)

/-- The mirror keeps back the removal of `x`. -/
def withheld (peer : ℕ) (removals : HashMap ℕ ℕ) (x : Identity) : Bool :=
  decide (x.2 = peer ∧ x.1 ≠ 0 ∧ x.1 - 1 ∈ removals)

/-- `doc` is what the queue has once it has handled all that was emitted. -/
structure Emitted (peer : ℕ) (m : Mirror) (doc : List Identity) : Prop where
  nodup : doc.Nodup
  below : ∀ x ∈ doc, x.1 ≤ m.nextTag
  shown : doc.filter (fun x => !withheld peer m.pendingRemovals x) =
    document (resolved peer m.lines)
  owed : ∀ tag ∈ m.pendingRemovals, (tag + 1, peer) ∈ doc

section Emitted

variable {peer : ℕ} {m : Mirror} {doc l r : List Identity} {value : Char} {parent name : Name}
  {lines : List Line} {x : Identity} {removals : HashMap ℕ ℕ} {tag row : ℕ}

theorem withheld_iff :
    withheld peer removals x = true ↔ ∃ tag ∈ removals, x = (tag + 1, peer) := by
  rw [withheld, decide_eq_true_iff]
  constructor
  · rintro ⟨rfl, hne, hin⟩
    exact ⟨x.1 - 1, hin, Prod.ext (by simp only; omega) rfl⟩
  · rintro ⟨tag, hin, rfl⟩
    exact ⟨rfl, Nat.succ_ne_zero tag, hin⟩

theorem filter_split {α : Type} {p : α → Bool} {doc l r : List α} {x : α}
    (h : doc.filter p = l ++ x :: r) :
    ∃ A B, doc = A ++ x :: B ∧ A.filter p = l ∧ B.filter p = r ∧ p x = true := by
  obtain ⟨A, C, rfl, hA, hC⟩ := List.filter_eq_append_iff.mp h
  obtain ⟨D, B, rfl, hD, hx, hB⟩ := List.filter_eq_cons_iff.mp hC
  have hnone : D.filter p = [] := List.filter_eq_nil_iff.mpr hD
  exact ⟨A ++ D, B, by simp, by rw [List.filter_append, hA, hnone, List.append_nil], hB, hx⟩

theorem emitted_insert (h : Emitted peer m doc) (hi : Inserted peer m value parent lines)
    (pendingAdds : Finset ℕ) : ∃ doc',
      insertAfter doc (parent.identity peer) (m.nextTag + 1, peer) = some doc' ∧
      Emitted peer ⟨lines, pendingAdds, m.pendingRemovals, m.nextTag + 1⟩ doc' := by
  obtain ⟨l, r, hl, hl'⟩ := hi.split
  obtain ⟨A, B, rfl, hA, hB, hp⟩ := filter_split (h.shown.trans hl)
  have hfresh : (m.nextTag + 1, peer) ∉ A ++ parent.identity peer :: B := fun hin =>
    absurd (h.below _ hin) (by simp)
  have hshown : withheld peer m.pendingRemovals (m.nextTag + 1, peer) = false := by
    rw [Bool.eq_false_iff, Ne, withheld_iff]
    rintro ⟨tag, hin, he⟩
    exact hfresh (he ▸ h.owed tag hin)
  have hperm : (A ++ parent.identity peer :: (m.nextTag + 1, peer) :: B).Perm
      ((m.nextTag + 1, peer) :: (A ++ parent.identity peer :: B)) := by
    have hmiddle : (A ++ [parent.identity peer] ++ (m.nextTag + 1, peer) :: B).Perm
        ((m.nextTag + 1, peer) :: (A ++ [parent.identity peer] ++ B)) := List.perm_middle
    simpa using hmiddle
  refine ⟨A ++ parent.identity peer :: (m.nextTag + 1, peer) :: B, insertAfter_middle h.nodup,
    ⟨hperm.nodup_iff.mpr (List.nodup_cons.mpr ⟨hfresh, h.nodup⟩), fun x hx => ?_, ?_,
    fun tag hin => ?_⟩⟩
  · rcases List.mem_cons.mp (hperm.mem_iff.mp hx) with rfl | hx
    · exact le_rfl
    · exact (h.below x hx).trans (Nat.le_succ _)
  · change List.filter (fun x => !withheld peer m.pendingRemovals x) _ =
      document (resolved peer lines)
    have hnew : (!withheld peer m.pendingRemovals (m.nextTag + 1, peer)) = true := by
      rw [hshown]
      rfl
    rw [hl', List.filter_append, hA, List.filter_cons, if_pos hp, List.filter_cons, if_pos hnew, hB]
  · exact hperm.mem_iff.mpr (List.mem_cons_of_mem _ (h.owed tag hin))

theorem emitted_sent (h : Emitted peer m doc) (hsplit : document (resolved peer m.lines) = l ++ x :: r)
    (hsplit' : document (resolved peer lines) = l ++ r) :
    ∃ doc', deleteFrom doc x = some doc' ∧ Emitted peer { m with lines } doc' := by
  obtain ⟨A, B, rfl, hA, hB, hx⟩ := filter_split (h.shown.trans hsplit)
  refine ⟨A ++ B, deleteFrom_middle h.nodup, ⟨?_, fun y hy => h.below y ?_, ?_, fun tag hin => ?_⟩⟩
  · exact h.nodup.sublist (List.Sublist.append_left (List.sublist_cons_self x B) A)
  · exact (List.Sublist.append_left (List.sublist_cons_self x B) A).subset hy
  · change _ = document (resolved peer lines)
    rw [hsplit', List.filter_append, hA, hB]
  · have hne : (tag + 1, peer) ≠ x := by
      rintro rfl
      rw [withheld_iff.mpr ⟨tag, hin, rfl⟩] at hx
      exact absurd hx (by simp)
    have hin' := h.owed tag hin
    simp only [List.mem_append, List.mem_cons] at hin' ⊢
    tauto

theorem emitted_kept (row : ℕ) (h : Emitted peer m doc)
    (hsplit : document (resolved peer m.lines) = l ++ (tag + 1, peer) :: r)
    (hsplit' : document (resolved peer lines) = l ++ r) :
    Emitted peer ⟨lines, m.pendingAdds, m.pendingRemovals.insert tag row, m.nextTag⟩ doc := by
  obtain ⟨A, B, rfl, hA, hB, hx⟩ := filter_split (h.shown.trans hsplit)
  have hnodup := h.nodup
  rw [List.nodup_middle, List.nodup_cons, List.mem_append, not_or] at hnodup
  have hself : withheld peer (m.pendingRemovals.insert tag row) (tag + 1, peer) = true :=
    withheld_iff.mpr ⟨tag, Finmap.mem_insert.mpr (Or.inl rfl), rfl⟩
  have hother : ∀ y, y ≠ (tag + 1, peer) →
      withheld peer (m.pendingRemovals.insert tag row) y = withheld peer m.pendingRemovals y := by
    intro y hy
    rw [Bool.eq_iff_iff, withheld_iff, withheld_iff]
    constructor
    · rintro ⟨t, hin, rfl⟩
      rcases Finmap.mem_insert.mp hin with rfl | hin
      · exact absurd rfl hy
      · exact ⟨t, hin, rfl⟩
    · rintro ⟨t, hin, rfl⟩
      exact ⟨t, Finmap.mem_insert.mpr (Or.inr hin), rfl⟩
  have hfilter : ∀ C : List Identity, (tag + 1, peer) ∉ C →
      C.filter (fun x => !withheld peer (m.pendingRemovals.insert tag row) x) =
        C.filter fun x => !withheld peer m.pendingRemovals x := fun C hC =>
    List.filter_congr fun y hy => by rw [hother y fun he => hC (he ▸ hy)]
  refine ⟨h.nodup, h.below, ?_, fun t hin => ?_⟩
  · change _ = document (resolved peer lines)
    rw [hsplit', List.filter_append, hfilter A hnodup.1.1, hA,
      List.filter_cons_of_neg (by rw [hself]; simp), hfilter B hnodup.1.2, hB]
  · rcases Finmap.mem_insert.mp hin with rfl | hin
    · simp
    · exact h.owed t hin

theorem emitted_released (h : Emitted peer m doc) (hin : tag ∈ m.pendingRemovals)
    (hsame : resolved peer lines = resolved peer m.lines) (pendingAdds : Finset ℕ) :
    ∃ doc', deleteFrom doc (tag + 1, peer) = some doc' ∧
      Emitted peer ⟨lines, pendingAdds, m.pendingRemovals.erase tag, m.nextTag⟩ doc' := by
  obtain ⟨A, B, rfl⟩ := List.append_of_mem (h.owed tag hin)
  have hnodup := h.nodup
  rw [List.nodup_middle, List.nodup_cons, List.mem_append, not_or] at hnodup
  have hself : withheld peer m.pendingRemovals (tag + 1, peer) = true :=
    withheld_iff.mpr ⟨tag, hin, rfl⟩
  have hfilter : ∀ C : List Identity, (tag + 1, peer) ∉ C →
      C.filter (fun x => !withheld peer (m.pendingRemovals.erase tag) x) =
        C.filter fun x => !withheld peer m.pendingRemovals x := by
    intro C hC
    refine List.filter_congr fun y hy => congrArg _ ?_
    rw [Bool.eq_iff_iff, withheld_iff, withheld_iff]
    constructor
    · rintro ⟨t, hin, rfl⟩
      exact ⟨t, (Finmap.mem_erase.mp hin).2, rfl⟩
    · rintro ⟨t, hin, rfl⟩
      refine ⟨t, Finmap.mem_erase.mpr ⟨?_, hin⟩, rfl⟩
      rintro rfl
      exact hC hy
  have hshown := h.shown
  rw [List.filter_append, List.filter_cons_of_neg (by rw [hself]; simp), ← hfilter A hnodup.1.1,
    ← hfilter B hnodup.1.2, ← List.filter_append, ← hsame] at hshown
  have hsub : List.Sublist (A ++ B) (A ++ (tag + 1, peer) :: B) :=
    List.Sublist.append_left (List.sublist_cons_self _ B) A
  refine ⟨A ++ B, deleteFrom_middle h.nodup,
    ⟨h.nodup.sublist hsub, fun y hy => h.below y (hsub.subset hy), hshown, fun t ht => ?_⟩⟩
  obtain ⟨hne, ht⟩ := Finmap.mem_erase.mp ht
  have hin' := h.owed t ht
  have hne' : ((t + 1, peer) : Identity) ≠ (tag + 1, peer) := by
    simpa using hne
  simp only [List.mem_append, List.mem_cons] at hin' ⊢
  tauto

end Emitted

section Written

variable {done : List BenchMirror.Edit} {offset tag t id peer : ℕ} {value : Char} {lines : List Line}

@[simp] theorem written_insert :
    written (done ++ [.insert offset value]) = written done ++ [value] := by
  simp [written]

@[simp] theorem written_delete : written (done ++ [.delete offset]) = written done := by
  simp [written]

theorem written_length : (written done).length = done.countP isInsert := by
  induction done with
  | nil => rfl
  | cons e done ih =>
    cases e with
    | insert offset value => simpa [written, isInsert, List.countP_cons] using ih
    | delete offset => simpa [written, isInsert, List.countP_cons] using ih

theorem written_more (e : BenchMirror.Edit) (h : (written done)[tag]? = some value) :
    (written (done ++ [e]))[tag]? = some value := by
  have hlt : tag < (written done).length := (List.getElem?_eq_some_iff.mp h).1
  cases e with
  | insert offset v => rwa [written_insert, List.getElem?_append_left hlt]
  | delete offset => rwa [written_delete]

theorem confirm_identity (name : Name) :
    (name.confirm tag (tag + 1) peer).identity peer = name.identity peer := by
  cases name with
  | known i p => rfl
  | pending t =>
    by_cases h : t = tag
    · simp [Name.confirm, Name.identity, h]
    · simp [Name.confirm, h]

theorem confirm_resolved :
    resolved peer (lines.map (Line.confirm tag (tag + 1) peer)) = resolved peer lines := by
  rw [resolved, resolved, List.map_map]
  refine List.map_congr_left fun line _ => ?_
  simp [Line.resolve, Line.confirm, Cell.resolve, Cell.confirm, confirm_identity, Function.comp_def]

theorem confirm_names (h : .pending t ∈ names (lines.map (Line.confirm tag id peer))) :
    .pending t ∈ names lines ∧ t ≠ tag := by
  have hname : ∀ name : Name, name.confirm tag id peer = .pending t → name = .pending t ∧ t ≠ tag := by
    intro name hn
    cases name with
    | known i p => exact absurd hn (by simp [Name.confirm])
    | pending j =>
      by_cases hj : j = tag
      · simp [Name.confirm, hj] at hn
      · simp only [Name.confirm, if_neg hj, Name.pending.injEq] at hn
        exact ⟨congrArg _ hn, hn ▸ hj⟩
  simp only [names, List.mem_flatMap, List.mem_map, List.mem_cons] at h ⊢
  obtain ⟨_, ⟨line, hline, rfl⟩, hn⟩ := h
  rcases hn with hn | ⟨_, hc, hn⟩
  · obtain ⟨he, hne⟩ := hname line.anchor hn.symm
    exact ⟨⟨line, hline, Or.inl he.symm⟩, hne⟩
  · obtain ⟨cell, hcell, rfl⟩ := List.mem_map.mp hc
    obtain ⟨he, hne⟩ := hname cell.name hn
    exact ⟨⟨line, hline, Or.inr ⟨cell, hcell, he⟩⟩, hne⟩

end Written

def addTag : Edit → Option ℕ
  | .add op => some op.tag
  | .remove _ => none

/-- `heard` confirmations have reached the client, and `b` is the in-process benchmark after
the same edits. -/
structure Linked (path : PathBuf) (ref : FileRef) (peer : ℕ) (done : List BenchMirror.Edit)
    (heard : ℕ) (b : Bench) (s : Socket) : Prop where
  bench : Mirroring path ref done b
  owner : b.queue.peer = peer
  lines : resolved peer s.mirror.lines = b.lines
  next : s.mirror.nextTag = done.countP isInsert
  waiting : ∀ tag, .pending tag ∈ names s.mirror.lines → heard ≤ tag ∧ tag < s.mirror.nextTag
  adds : ∀ tag, tag ∈ s.mirror.pendingAdds ↔ heard ≤ tag ∧ tag < s.mirror.nextTag
  removals : ∀ tag ∈ s.mirror.pendingRemovals, heard ≤ tag ∧ tag < s.mirror.nextTag
  inbox : s.inbox = (List.range' heard s.inbox.length).map fun tag => ⟨tag, tag + 1, peer⟩
  counter : heard + s.inbox.length = s.queue.counter
  behind : s.queue.counter ≤ s.mirror.nextTag
  outbox : s.outbox.filterMap addTag =
    List.range' s.queue.counter (s.mirror.nextTag - s.queue.counter)
  genuine : ∀ e ∈ s.outbox, Genuine path (written done) e
  serving : ∃ f doc, Serving path ref peer (written done) s.queue f ∧
    s.outbox.foldlM (processed peer) (text f) = some doc ∧ Emitted peer s.mirror doc
  cells : ∀ cell ∈ b.lines.flatMap BenchMirror.Line.cells, ∃ tag,
    cell.identity = (tag + 1, peer) ∧ (written done)[tag]? = some cell.value
  anchors : ∀ y ∈ b.lines.map BenchMirror.Line.anchor,
    y = root ∨ ∃ tag, y = (tag + 1, peer) ∧ (written done)[tag]? = some '\n'

/-- How many steps the messages and confirmations under way can still cause. -/
def cost : Edit → ℕ
  | .add _ => 3
  | .remove _ => 1

def burden (s : Socket) : ℕ := (s.outbox.map cost).sum + 2 * s.inbox.length

section Steps

variable {path : PathBuf} {ref : FileRef} {peer heard offset : ℕ} {done : List BenchMirror.Edit}
  {b : Bench} {s : Socket} {value : Char} {e : BenchMirror.Edit} {q : SharQueue} {f : SharFile}

theorem genuine_more {message : Edit} (h : Genuine path (written done) message) :
    Genuine path (written (done ++ [e])) message := by
  cases message with
  | add op =>
    obtain ⟨parent, row, value, hop, hv⟩ := h
    exact ⟨parent, row, value, hop, written_more e hv⟩
  | remove op => exact h

theorem typed_more {x : Identity} (e : BenchMirror.Edit)
    (h : x = root ∨ ∃ tag, x = (tag + 1, peer) ∧ (written done)[tag]? = some value) :
    x = root ∨ ∃ tag, x = (tag + 1, peer) ∧ (written (done ++ [e]))[tag]? = some value := by
  rcases h with hx | ⟨tag, hx, hv⟩
  · exact Or.inl hx
  · exact Or.inr ⟨tag, hx, written_more e hv⟩

theorem serving_more (h : Serving path ref peer (written done) q f) :
    Serving path ref peer (written (done ++ [e])) q f :=
  { h with values := fun x rel hl => typed_more e (h.values x rel hl) }

theorem linked_insert (h : Linked path ref peer done heard b s)
    (hoff : offset < (document b.lines).length) (hroom : done.countP isInsert + 1 < 2 ^ 32) :
    ∃ s' b', s.step path (.edit (.insert offset value)) = some s' ∧
      BenchMirror.insertChar path b offset value = some b' ∧
      Linked path ref peer (done ++ [.insert offset value]) heard b' s' ∧
      (document b'.lines).length = (document b.lines).length + 1 := by
  have hoff' : offset < (document (resolved peer s.mirror.lines)).length := h.lines.symm ▸ hoff
  obtain ⟨lines, row, parent, he, hi, hbench⟩ := insertChar_spec path value hoff'
  obtain ⟨b', hb', hM', hlen⟩ := insert_step value h.bench hoff hroom
  obtain ⟨op, hq, himp⟩ := hbench b b' h.lines.symm hb'
  have htick : tick b.queue.counter = some (b.queue.counter + 1) :=
    tick_eq_some.mpr ⟨h.bench.counter.symm ▸ hroom, rfl⟩
  obtain ⟨hnew, howner⟩ := addIde_confirms h.bench.sound htick hq
  have hlines : b'.lines = resolved peer lines := himp <| by
    rw [confirmed_of_newly hnew, h.owner, h.bench.counter, h.next]
  have hcount : (done ++ [BenchMirror.Edit.insert offset value]).countP isInsert =
      done.countP isInsert + 1 := by
    rw [List.countP_append]
    rfl
  obtain ⟨f, doc, hserving, hfold, hemitted⟩ := h.serving
  obtain ⟨doc', hdoc', hemitted'⟩ :=
    emitted_insert hemitted hi (insert s.mirror.nextTag s.mirror.pendingAdds)
  refine ⟨⟨⟨lines, insert s.mirror.nextTag s.mirror.pendingAdds, s.mirror.pendingRemovals,
    s.mirror.nextTag + 1⟩, s.outbox ++ [.add (emitAdd path parent row value s.mirror.nextTag)],
    s.queue, s.inbox⟩, b', ?_, hb',
      ⟨hM', howner.trans h.owner, hlines.symm, ?_, fun tag ht => ?_, fun tag => ?_,
      fun tag ht => ?_, h.inbox, h.counter, h.behind.trans (Nat.le_succ _), ?_, fun e hin => ?_, ?_,
      fun cell hc => ?_, fun y hy => ?_⟩, hlen⟩
  · simp only [Socket.step, Mirror.apply, he, Option.bind_eq_bind, Option.bind_some]
  · rw [hcount, ← h.next]
  · rcases hi.names _ ht with ht | ht
    · exact (h.waiting tag ht).imp_right Nat.lt_succ_of_lt
    · rw [Name.pending.injEq] at ht
      subst ht
      exact ⟨(h.counter ▸ Nat.le_add_right _ _ : heard ≤ s.queue.counter).trans h.behind,
        Nat.lt_succ_self _⟩
  · have hheard : heard ≤ s.mirror.nextTag :=
      (h.counter ▸ Nat.le_add_right _ _ : heard ≤ s.queue.counter).trans h.behind
    simp only [Finset.mem_insert, h.adds]
    omega
  · exact (h.removals tag ht).imp_right Nat.lt_succ_of_lt
  · have hsucc : s.mirror.nextTag + 1 - s.queue.counter =
        (s.mirror.nextTag - s.queue.counter) + 1 := by
      have := h.behind
      omega
    have hlast : s.queue.counter + (s.mirror.nextTag - s.queue.counter) = s.mirror.nextTag := by
      have := h.behind
      omega
    simp only [List.filterMap_append, h.outbox, hsucc, List.range'_1_concat, hlast]
    simp [addTag]
  · rcases List.mem_append.mp hin with hin | hin
    · exact genuine_more (h.genuine e hin)
    · rw [List.mem_singleton] at hin
      subst hin
      refine ⟨parent, row, value, by rw [emitAdd_tag], ?_⟩
      rw [emitAdd_tag, written_insert, h.next, ← written_length]
      exact List.getElem?_concat_length
  · refine ⟨f, doc', serving_more hserving, ?_, hemitted'⟩
    rw [List.foldlM_append, hfold]
    simp only [Option.bind_eq_bind, Option.bind_some, List.foldlM_cons, List.foldlM_nil, processed,
      meantBy_emitAdd, emitAdd_tag, hdoc']
    rfl
  · rw [hlines] at hc
    rcases hi.cells cell hc with hc | ⟨rfl, _⟩
    · obtain ⟨tag, hx, hv⟩ := h.cells cell (h.lines ▸ hc)
      exact ⟨tag, hx, written_more _ hv⟩
    · refine ⟨s.mirror.nextTag, rfl, ?_⟩
      rw [written_insert, h.next, ← written_length]
      exact List.getElem?_concat_length
  · rw [hlines] at hy
    rcases hi.anchors y hy with hy | ⟨rfl, rfl⟩
    · exact typed_more _ (h.anchors y (h.lines ▸ hy))
    · refine Or.inr ⟨s.mirror.nextTag, rfl, ?_⟩
      rw [written_insert, h.next, ← written_length]
      exact List.getElem?_concat_length

theorem sent_genuine {sent : List Edit} {letters : List Char}
    (h : sent = [] ∨ ∃ op : Remove, sent = [.remove op] ∧ op.filePath = path) :
    sent.filterMap addTag = [] ∧ ∀ message ∈ sent, Genuine path letters message := by
  rcases h with rfl | ⟨op, rfl, hop⟩
  · exact ⟨rfl, by simp⟩
  · refine ⟨rfl, fun message hin => ?_⟩
    rw [List.mem_singleton] at hin
    exact hin ▸ hop

theorem processed_removal {doc doc' : List Identity} {op : Remove} (hne : op.identity ≠ root)
    (hd : deleteFrom doc op.identity = some doc') :
    [Edit.remove op].foldlM (processed peer) doc = some doc' := by
  simp only [List.foldlM_cons, List.foldlM_nil, processed, if_neg hne, hd, Option.bind_eq_bind,
    Option.bind_some]
  rfl

theorem linked_delete (h : Linked path ref peer done heard b s)
    (hoff : offset + 1 < (document b.lines).length) :
    ∃ s' b', s.step path (.edit (.delete offset)) = some s' ∧
      BenchMirror.removeChar path b offset = some b' ∧
      Linked path ref peer (done ++ [.delete offset]) heard b' s' ∧
      (document b'.lines).length + 1 = (document b.lines).length := by
  have hoff' : offset + 1 < (document (resolved peer s.mirror.lines)).length := h.lines.symm ▸ hoff
  obtain ⟨lines, name, row, he, hd, hbench⟩ := deleteChar_spec path hoff'
  obtain ⟨b', hb', hM', hlen⟩ := remove_step h.bench hoff
  have hremoved := hbench b h.lines.symm
  rw [hb', eq_comm, Option.map_eq_some_iff] at hremoved
  obtain ⟨q, hq, rfl⟩ := hremoved
  obtain ⟨y, l, r, hsplit, hsplit'⟩ := hd.split
  have hx : name.identity peer ≠ root := by
    obtain ⟨f, _, hm⟩ := h.bench.file
    exact behind_first hm.shape (hm.text.trans (h.lines ▸ hsplit))
  have hcount : (done ++ [BenchMirror.Edit.delete offset]).countP isInsert =
      done.countP isInsert := by
    rw [List.countP_append]
    rfl
  obtain ⟨f, doc, hserving, hfold, hemitted⟩ := h.serving
  -- all that does not depend on whether the removal is sent
  have hlinked : ∀ removals sent, (∀ tag ∈ removals, heard ≤ tag ∧ tag < s.mirror.nextTag) →
      (sent = [] ∨ ∃ op : Remove, sent = [.remove op] ∧ op.filePath = path) →
      (∃ doc', sent.foldlM (processed peer) doc = some doc' ∧
        Emitted peer ⟨lines, s.mirror.pendingAdds, removals, s.mirror.nextTag⟩ doc') →
      Linked path ref peer (done ++ [.delete offset]) heard ⟨q, resolved peer lines, b.nextTag⟩
        ⟨⟨lines, s.mirror.pendingAdds, removals, s.mirror.nextTag⟩, s.outbox ++ sent, s.queue,
          s.inbox⟩ := by
    rintro removals sent hremovals hsent ⟨doc', hdoc', hemitted'⟩
    obtain ⟨htags, hgenuine⟩ := sent_genuine hsent
    refine ⟨hM', (removeIde_confirms h.bench.sound hq).2.trans h.owner, rfl, hcount ▸ h.next,
      fun tag ht => h.waiting tag (hd.names _ ht), h.adds, hremovals, h.inbox, h.counter, h.behind,
      ?_, fun e hin => ?_, ⟨f, doc', serving_more hserving, ?_, hemitted'⟩, fun cell hc => ?_,
      fun y hy => ?_⟩
    · simp only [List.filterMap_append, h.outbox, htags, List.append_nil]
    · rcases List.mem_append.mp hin with hin | hin
      · exact genuine_more (h.genuine e hin)
      · exact hgenuine e hin
    · rw [List.foldlM_append, hfold]
      exact hdoc'
    · obtain ⟨tag, hx, hv⟩ := h.cells cell (h.lines ▸ hd.cells cell hc)
      exact ⟨tag, hx, written_more _ hv⟩
    · exact typed_more _ (h.anchors y (h.lines ▸ hd.anchors y hy))
  cases name with
  | known id p =>
    obtain ⟨doc', hdoc', hemitted'⟩ := emitted_sent hemitted hsplit hsplit'
    refine ⟨_, _, ?_, hb', hlinked _ [.remove ⟨path, id, p, row⟩] h.removals
      (Or.inr ⟨_, rfl, rfl⟩) ⟨doc', ?_, hemitted'⟩, hlen⟩
    · simp only [Socket.step, Mirror.apply, he, removeIdentity, Option.bind_eq_bind,
        Option.bind_some]
    · exact processed_removal hx hdoc'
  | pending tag =>
    refine ⟨_, _, ?_, hb', hlinked _ [] (fun t ht => ?_) (Or.inl rfl)
      ⟨doc, rfl, emitted_kept row hemitted hsplit hsplit'⟩, hlen⟩
    · simp only [Socket.step, Mirror.apply, he, removeIdentity, Option.bind_eq_bind,
        Option.bind_some]
    · rcases Finmap.mem_insert.mp ht with rfl | ht
      · exact h.waiting _ hd.name
      · exact h.removals t ht

theorem linked_serve (h : Linked path ref peer done heard b s) (hne : s.outbox ≠ [])
    (hroom : done.countP isInsert < 2 ^ 32) :
    ∃ s', s.step path (.serve 0) = some s' ∧ Linked path ref peer done heard b s' ∧
      burden s' < burden s := by
  obtain ⟨message, rest, hout⟩ := List.exists_cons_of_ne_nil hne
  obtain ⟨f, doc, hserving, hfold, hemitted⟩ := h.serving
  rw [hout, List.foldlM_cons, Option.bind_eq_bind, Option.bind_eq_some_iff] at hfold
  obtain ⟨doc₁, hdoc₁, hfold⟩ := hfold
  have hgenuine := h.genuine message (by rw [hout]; exact List.mem_cons_self)
  have hrest : ∀ e ∈ rest, Genuine path (written done) e := fun e he =>
    h.genuine e (by rw [hout]; exact List.mem_cons_of_mem _ he)
  have htags := h.outbox
  rw [hout] at htags
  cases message with
  | add op =>
    change op.tag :: rest.filterMap addTag = _ at htags
    have hpos : s.mirror.nextTag - s.queue.counter ≠ 0 := by
      intro hz
      rw [hz] at htags
      exact absurd htags (by simp)
    obtain ⟨n, hn⟩ := Nat.exists_eq_succ_of_ne_zero hpos
    rw [hn, List.range'_succ, List.cons.injEq] at htags
    have hlt : s.queue.counter + 1 ≤ s.mirror.nextTag := by omega
    have hnext := h.next
    obtain ⟨q, g, hq, hserving', htext, hnew, hcounter, _⟩ :=
      served_add hserving hgenuine htags.1 (by omega) hdoc₁
    refine ⟨⟨s.mirror, rest, q, s.inbox ++ newlyConfirmed s.queue q⟩, ?_, ⟨h.bench, h.owner, h.lines,
      h.next, h.waiting, h.adds, h.removals, ?_, ?_, hcounter ▸ hlt, ?_, hrest,
      ⟨g, doc, hserving', htext ▸ hfold, hemitted⟩, h.cells, h.anchors⟩, ?_⟩
    · simp [Socket.step, hout, Edit.call, QueueCall.apply, hq]
    · have hlast : heard + s.inbox.length = op.tag := h.counter.trans htags.1.symm
      rw [hnew, List.length_append, List.length_singleton, List.range'_1_concat, List.map_append,
        ← h.inbox, hlast]
      rfl
    · rw [hnew, List.length_append, List.length_singleton, ← Nat.add_assoc, h.counter, hcounter]
    · have hsub : s.mirror.nextTag - (s.queue.counter + 1) = n := by omega
      rw [hcounter, hsub]
      exact htags.2
    · simp only [burden, hout, hnew, List.map_cons, List.sum_cons, List.length_append,
        List.length_singleton, cost]
      omega
  | remove op =>
    change rest.filterMap addTag = _ at htags
    obtain ⟨q, g, hq, hserving', htext, hnew, hcounter⟩ := served_remove hserving hgenuine hdoc₁
    refine ⟨⟨s.mirror, rest, q, s.inbox ++ newlyConfirmed s.queue q⟩, ?_, ⟨h.bench, h.owner, h.lines,
      h.next, h.waiting, h.adds, h.removals, ?_, ?_, hcounter ▸ h.behind, hcounter ▸ htags, hrest,
      ⟨g, doc, hserving', htext ▸ hfold, hemitted⟩, h.cells, h.anchors⟩, ?_⟩
    · simp [Socket.step, hout, Edit.call, QueueCall.apply, hq]
    · rw [hnew, List.append_nil]
      exact h.inbox
    · rw [hnew, List.append_nil, hcounter]
      exact h.counter
    · simp only [burden, hout, hnew, List.map_cons, List.sum_cons, List.append_nil, cost]
      omega

theorem linked_hear (h : Linked path ref peer done heard b s) (hne : s.inbox ≠ []) :
    ∃ s', s.step path .hear = some s' ∧ Linked path ref peer done (heard + 1) b s' ∧
      burden s' < burden s := by
  obtain ⟨c, rest, hin⟩ := List.exists_cons_of_ne_nil hne
  have hinbox := h.inbox
  rw [hin, List.length_cons, List.range'_succ, List.map_cons, List.cons.injEq] at hinbox
  obtain ⟨rfl, hrest⟩ := hinbox
  have hcounter := h.counter
  rw [hin, List.length_cons] at hcounter
  have hlt : heard < s.mirror.nextTag := by
    have := h.behind
    omega
  have hadd : heard ∈ s.mirror.pendingAdds := (h.adds heard).mpr ⟨le_rfl, hlt⟩
  have hsame : resolved peer (s.mirror.lines.map (Line.confirm heard (heard + 1) peer)) =
      resolved peer s.mirror.lines := confirm_resolved
  obtain ⟨f, doc, hserving, hfold, hemitted⟩ := h.serving
  have hlinked : ∀ removals sent, (∀ tag ∈ removals, tag ∈ s.mirror.pendingRemovals ∧ tag ≠ heard) →
      (sent = [] ∨ ∃ op : Remove, sent = [.remove op] ∧ op.filePath = path) →
      (∃ doc', sent.foldlM (processed peer) doc = some doc' ∧
        Emitted peer ⟨s.mirror.lines.map (Line.confirm heard (heard + 1) peer),
          s.mirror.pendingAdds.erase heard, removals, s.mirror.nextTag⟩ doc') →
      Linked path ref peer done (heard + 1) b
        ⟨⟨s.mirror.lines.map (Line.confirm heard (heard + 1) peer), s.mirror.pendingAdds.erase heard,
          removals, s.mirror.nextTag⟩, s.outbox ++ sent, s.queue, rest⟩ := by
    rintro removals sent hremovals hsent ⟨doc', hdoc', hemitted'⟩
    obtain ⟨htags, hgenuine⟩ := sent_genuine hsent
    refine ⟨h.bench, h.owner, hsame.trans h.lines, h.next, fun tag ht => ?_, fun tag => ?_,
      fun tag ht => ?_, hrest, by simp only; omega, h.behind, ?_, fun e hin => ?_,
      ⟨f, doc', hserving, ?_, hemitted'⟩, h.cells, h.anchors⟩
    · obtain ⟨ht, hne⟩ := confirm_names ht
      have hb := h.waiting tag ht
      simp only
      omega
    · simp only [Finset.mem_erase, h.adds]
      omega
    · obtain ⟨ht, hne⟩ := hremovals tag ht
      have hb := h.removals tag ht
      simp only
      omega
    · simp only [List.filterMap_append, h.outbox, htags, List.append_nil]
    · exact (List.mem_append.mp hin).elim (h.genuine e) (hgenuine e)
    · rw [List.foldlM_append, hfold]
      exact hdoc'
  cases hl : s.mirror.pendingRemovals.lookup heard with
  | none =>
    refine ⟨_, ?_, hlinked _ [] (fun tag ht => ⟨ht, ?_⟩) (Or.inl rfl) ⟨doc, rfl, ?_⟩, ?_⟩
    · simp [Socket.step, hin, confirmAdd, hadd, hl]
    · rintro rfl
      exact Finmap.lookup_eq_none.mp hl ht
    · exact ⟨hemitted.nodup, hemitted.below, hemitted.shown.trans (congrArg _ hsame.symm),
        hemitted.owed⟩
    · simp only [burden, hin, List.append_nil, List.length_cons]
      omega
  | some row =>
    have hkept : heard ∈ s.mirror.pendingRemovals := Finmap.mem_iff.mpr ⟨row, hl⟩
    obtain ⟨doc', hdoc', hemitted'⟩ :=
      emitted_released hemitted hkept hsame (s.mirror.pendingAdds.erase heard)
    refine ⟨_, ?_, hlinked _ [.remove ⟨path, heard + 1, peer, row⟩] (fun tag ht => ?_)
      (Or.inr ⟨_, rfl, rfl⟩) ⟨doc', ?_, hemitted'⟩, ?_⟩
    · simp [Socket.step, hin, confirmAdd, hadd, hl]
    · exact (Finmap.mem_erase.mp ht).symm
    · exact processed_removal (by simp [Remove.identity, root]) hdoc'
    · simp only [burden, hin, List.map_append, List.map_cons, List.map_nil, List.sum_append,
        List.sum_cons, List.sum_nil, List.length_cons, cost]
      omega

theorem typed_value {tag : ℕ} {letters : List Char} (h : Serving path ref peer letters q f)
    (hx : (tag + 1, peer) ∈ text f) (hv : letters[tag]? = some value) :
    (f.characters.lookup (tag + 1, peer)).map CrdtRelation.value = some value := by
  obtain ⟨rel, hrel⟩ := Finmap.mem_iff.mp ((h.shape.live _).mpr hx).mem
  rcases h.values _ rel hrel with he | ⟨t, he, hv'⟩
  · exact absurd he (by simp [root])
  · obtain rfl : tag = t := by simpa using he
    rw [hrel, Option.map_some, ← hv', hv]

end Steps

section Whole

variable {dirPath path : PathBuf} {name : String} {peer heard n : ℕ} {q : SharQueue} {ref : FileRef}
  {done rest : List BenchMirror.Edit} {b : Bench} {s s' : Socket} {events : List Event} {e : Event}

theorem linked_start (hl : SharQueue.new dirPath (.ok [.file name (.ok [])]) peer = some (.ok q))
    (hr : q.tree.findFile path = some ref) :
    Linked path ref peer [] 0 (BenchMirror.start q) (connect q) := by
  have hM := BenchMirror.start_mirroring hl hr
  obtain ⟨f, hf, hm⟩ := hM.file
  obtain ⟨_, _, hq⟩ := PathRouting.new_tree hl
  have hpeer : q.peer = peer := by rw [hq]
  have hzero : q.counter = 0 := hM.counter
  have hroot : ∀ x ∈ f.characters, x = root := by
    intro x hx
    rw [(BenchMirror.loaded_empty hl).2 ref f hf, emptyFile] at hx
    exact (Finmap.mem_insert.mp hx).resolve_right Finmap.notMem_empty
  refine ⟨hM, hpeer, rfl, rfl, fun tag ht => absurd ht (by simp [connect, createDocMirror, names]),
    fun tag => ?_, fun tag ht => absurd ht Finmap.notMem_empty, rfl, ?_, hzero.le, ?_,
    fun e he => absurd he (by simp [connect]), ⟨f, [root], ?_, ?_, ?_⟩, fun cell hc => ?_,
    fun y hy => ?_⟩
  · simp [connect, createDocMirror]
  · simp [connect, hzero]
  · simp [connect, createDocMirror, hzero]
  · refine ⟨hr, hM.sound, hM.quiet, hpeer, fun tag ht => ?_, hf, hm.shape, fun x hx => ?_,
      fun tag ht => ?_, fun x rel hrel => Or.inl (hroot x (Finmap.mem_iff.mpr ⟨rel, hrel⟩))⟩
    · rw [show (connect q).queue.counter = 0 from hzero] at ht
      exact absurd ht (Nat.not_lt_zero _)
    · rw [hroot x hx]
      exact Nat.zero_le _
    · rw [show (connect q).queue.counter = 0 from hzero] at ht
      exact absurd ht (Nat.not_lt_zero _)
  · rw [hm.text]
    rfl
  · refine ⟨List.nodup_singleton _, fun x hx => ?_, ?_, fun tag ht => absurd ht Finmap.notMem_empty⟩
    · rw [List.mem_singleton.mp hx]
      exact Nat.zero_le _
    · have hnone : withheld peer (connect q).mirror.pendingRemovals root = false := by
        rw [Bool.eq_false_iff, Ne, withheld_iff]
        rintro ⟨tag, ht, _⟩
        exact absurd ht Finmap.notMem_empty
      simp only [List.filter_cons, hnone, List.filter_nil]
      rfl
  · exact absurd hc (by simp [BenchMirror.start])
  · exact Or.inl (by simpa [BenchMirror.start, BenchMirror.Line.anchor, root] using hy)

theorem linked_run (h : Linked path ref peer done heard b s) (hn : (document b.lines).length = n + 1)
    (hrange : InRange n (played events ++ rest))
    (hroom : (done ++ played events).countP isInsert < 2 ^ 32) (horder : InOrder events)
    (hrun : events.foldlM (Socket.step path) s = some s') : ∃ heard' b' n',
      (played events).foldlM (BenchMirror.Edit.apply path) b = some b' ∧
      Linked path ref peer (done ++ played events) heard' b' s' ∧
      (document b'.lines).length = n' + 1 ∧ InRange n' rest := by
  induction events generalizing done heard b n s with
  | nil =>
    obtain rfl := Option.some.inj hrun
    exact ⟨heard, b, n, rfl, by simpa [played] using h, hn, hrange⟩
  | cons e events ih =>
    rw [List.foldlM_cons, Option.bind_eq_bind, Option.bind_eq_some_iff] at hrun
    obtain ⟨s₁, hs₁, hrun⟩ := hrun
    have hsame : ∀ {s₂}, s.step path e = some s₂ → s₂ = s₁ := fun hs₂ =>
      Option.some.inj (hs₂.symm.trans hs₁)
    have hrest : InOrder events := fun i hi => horder i (List.mem_cons_of_mem _ hi)
    cases e with
    | edit e =>
      have hassoc : done ++ played (.edit e :: events) = (done ++ [e]) ++ played events := by
        simp [played]
      rw [hassoc] at hroom ⊢
      have hstep : ∃ b₁ n₁, e.apply path b = some b₁ ∧ Linked path ref peer (done ++ [e]) heard b₁ s₁ ∧
          (document b₁.lines).length = n₁ + 1 ∧ InRange n₁ (played events ++ rest) := by
        cases e with
        | insert offset value =>
          have hone : done.countP isInsert + 1 < 2 ^ 32 := by
            rw [List.countP_append, List.countP_append] at hroom
            simp only [List.countP_singleton, isInsert, if_true] at hroom
            omega
          have hoff : offset < (document b.lines).length := by
            have := hrange.1
            omega
          obtain ⟨s₂, b₁, hs₂, hb₁, h₁, hlen⟩ := linked_insert h hoff hone
          exact ⟨b₁, n + 1, hb₁, hsame hs₂ ▸ h₁, by omega, hrange.2⟩
        | delete offset =>
          have hoff : offset + 1 < (document b.lines).length := by
            have := hrange.1
            omega
          obtain ⟨s₂, b₁, hs₂, hb₁, h₁, hlen⟩ := linked_delete h hoff
          exact ⟨b₁, n - 1, hb₁, hsame hs₂ ▸ h₁, by have := hrange.1; omega, hrange.2⟩
      obtain ⟨b₁, n₁, hb₁, h₁, hlen, hrange₁⟩ := hstep
      obtain ⟨heard', b', n', hb', h', hn', hlater⟩ := ih h₁ hlen hrange₁ hroom hrest hrun
      refine ⟨heard', b', n', ?_, h', hn', hlater⟩
      change ((e.apply path b).bind fun b => (played events).foldlM _ b) = some b'
      rw [hb₁]
      exact hb'
    | serve i =>
      obtain rfl := horder i List.mem_cons_self
      have hne : s.outbox ≠ [] := by
        intro he
        simp [Socket.step, he] at hs₁
      have hroom' : done.countP isInsert < 2 ^ 32 := by
        rw [List.countP_append] at hroom
        omega
      obtain ⟨s₂, hs₂, h₁, _⟩ := linked_serve h hne hroom'
      exact ih (hsame hs₂ ▸ h₁) hn hrange hroom hrest hrun
    | hear =>
      have hne : s.inbox ≠ [] := by
        intro he
        simp [Socket.step, he] at hs₁
      obtain ⟨s₂, hs₂, h₁, _⟩ := linked_hear h hne
      exact ih (hsame hs₂ ▸ h₁) hn hrange hroom hrest hrun

def onF : PathBuf := [.rootDir, .normal "s", .normal "f"]

def loadedF : SharQueue := oneFile "s" 5 noChars [[root]] 0 []

theorem loadedF_new : SharQueue.new [.rootDir, .normal "s"] (.ok [.file "f" (.ok [])]) 5 =
    some (.ok loadedF) := rfl

theorem loadedF_finds : loadedF.tree.findFile onF = some ([], 0) := by decide

/-- What the server does does not show in the text of the client. -/
theorem client_kept {e : Event} (he : played [e] = []) (hs : s.step path e = some s') :
    mirrorRows s'.mirror.lines = mirrorRows s.mirror.lines := by
  cases e with
  | edit e => exact absurd he (by simp [played])
  | serve i =>
    simp only [Socket.step, Option.bind_eq_bind, Option.bind_eq_some_iff] at hs
    obtain ⟨_, _, _, _, hs⟩ := hs
    obtain rfl := Option.some.inj hs
    rfl
  | hear =>
    cases hin : s.inbox with
    | nil => exact absurd hs (by simp [Socket.step, hin])
    | cons c inbox =>
      simp only [Socket.step, hin, Option.some.injEq] at hs
      subst hs
      exact confirmAdd_rows

theorem client_run {text : List Char} (hne : mirrorRows s.mirror.lines ≠ [])
    (hflat : (played events).foldlM onText (mirrorText s.mirror.lines) = some text)
    (hrun : events.foldlM (Socket.step path) s = some s') : mirrorText s'.mirror.lines = text := by
  induction events generalizing s with
  | nil =>
    obtain rfl := Option.some.inj hrun
    exact Option.some.inj hflat
  | cons e events ih =>
    rw [List.foldlM_cons, Option.bind_eq_bind, Option.bind_eq_some_iff] at hrun
    obtain ⟨s₁, hs₁, hrun⟩ := hrun
    have hkept : played [e] = [] → mirrorText s₁.mirror.lines = mirrorText s.mirror.lines ∧
        mirrorRows s₁.mirror.lines ≠ [] := fun he => by
      have hrows := client_kept he hs₁
      exact ⟨congrArg (List.intercalate ['\n']) hrows, hrows ▸ hne⟩
    cases e with
    | edit e =>
      have hplayed : played (.edit e :: events) = e :: played events := rfl
      rw [hplayed, List.foldlM_cons, Option.bind_eq_bind, Option.bind_eq_some_iff] at hflat
      obtain ⟨text₁, ht₁, hflat⟩ := hflat
      simp only [Socket.step, Option.bind_eq_bind, Option.bind_eq_some_iff] at hs₁
      obtain ⟨⟨m, sent⟩, hm, hs₁⟩ := hs₁
      obtain rfl := Option.some.inj hs₁
      obtain ⟨hne₁, rfl⟩ := client_text hne ht₁ hm
      exact ih hne₁ hflat hrun
    | serve i =>
      obtain ⟨htext, hne₁⟩ := hkept rfl
      exact ih hne₁ (htext.symm ▸ hflat) hrun
    | hear =>
      obtain ⟨htext, hne₁⟩ := hkept rfl
      exact ih hne₁ (htext.symm ▸ hflat) hrun

theorem client_start {text : List Char} (hflat : (played events).foldlM onText [] = some text)
    (hrun : events.foldlM (Socket.step path) (connect q) = some s) :
    mirrorText s.mirror.lines = text :=
  client_run (s := connect q) (by simp [connect, createDocMirror, mirrorRows]) hflat hrun

/-- Whatever is under way, and in whatever order the server handles the messages, the client
shows the text of the in-process benchmark after the same edits. In the order in which they were
sent the lines are the same too, once each tag is read as the identity that its add gets. -/
theorem mirrors_alike (hl : SharQueue.new dirPath (.ok [.file name (.ok [])]) peer = some (.ok q))
    (hr : q.tree.findFile path = some ref) (hrange : InRange 0 (played events))
    (hroom : (played events).countP isInsert < 2 ^ 32)
    (hrun : events.foldlM (Socket.step path) (connect q) = some s) :
    ∃ b, (played events).foldlM (BenchMirror.Edit.apply path) (BenchMirror.start q) = some b ∧
      mirrorText s.mirror.lines = currentText b.lines ∧
      (InOrder events → resolved peer s.mirror.lines = b.lines) := by
  obtain ⟨text, htext⟩ := @in_range_text [] _ hrange
  obtain ⟨b, hb, _⟩ := BenchMirror.mirror_run (n := 0) (BenchMirror.start_mirroring hl hr) rfl
    hrange (by rwa [List.nil_append])
  have hbench := bench_text (b := BenchMirror.start q) (List.cons_ne_nil _ _) htext hb
  refine ⟨b, hb, by rw [client_start htext hrun, hbench], fun horder => ?_⟩
  obtain ⟨_, b', _, hb', h, _⟩ := linked_run (n := 0) (linked_start hl hr) rfl
    (by rwa [List.append_nil]) (by rwa [List.nil_append]) horder hrun
  obtain rfl := Option.some.inj (hb.symm.trans hb')
  exact h.lines

/-- Two lines are typed, and the first character is deleted before its add is confirmed. -/
def underWay : List Event :=
  [.edit (.insert 0 'a'), .edit (.insert 1 '\n'), .edit (.insert 2 'b'), .serve 0,
    .edit (.delete 0), .hear]

/-- The task of the second add runs first. -/
def overtaken : List Event :=
  [.edit (.insert 0 'a'), .edit (.insert 0 'b'), .serve 1, .serve 0, .hear, .hear]

theorem mirrors_alike_underWay :
    (∃ s b, overtaken.foldlM (Socket.step onF) (connect loadedF) = some s ∧
      (played overtaken).foldlM (BenchMirror.Edit.apply onF) (BenchMirror.start loadedF) = some b ∧
      mirrorText s.mirror.lines = currentText b.lines) ∧
    ∃ s b, underWay.foldlM (Socket.step onF) (connect loadedF) = some s ∧
      (played underWay).foldlM (BenchMirror.Edit.apply onF) (BenchMirror.start loadedF) = some b ∧
      resolved 5 s.mirror.lines = b.lines := by
  obtain ⟨s, hrun⟩ : ∃ s, overtaken.foldlM (Socket.step onF) (connect loadedF) = some s :=
    Option.isSome_iff_exists.mp (by decide +kernel)
  obtain ⟨s', hrun'⟩ : ∃ s, underWay.foldlM (Socket.step onF) (connect loadedF) = some s :=
    Option.isSome_iff_exists.mp (by decide +kernel)
  obtain ⟨b, hb, htext, _⟩ := mirrors_alike loadedF_new loadedF_finds
    (by simp [played, overtaken, InRange]) (by decide) hrun
  obtain ⟨b', hb', _, hlines⟩ := mirrors_alike loadedF_new loadedF_finds
    (by simp [played, underWay, InRange]) (by decide) hrun'
  exact ⟨⟨s, b, hrun, hb, htext⟩, s', b', hrun', hb', hlines (by simp [InOrder, underWay])⟩

/-- Nothing is under way: the file has all that was typed and the mirror is its text. -/
theorem linked_rest (h : Linked path ref peer done heard b s) (hout : s.outbox = [])
    (hin : s.inbox = []) :
    s.mirror.pendingAdds = ∅ ∧ s.mirror.pendingRemovals = ∅ ∧
      s.queue.counter = s.mirror.nextTag ∧
      ∃ f, Serving path ref peer (written done) s.queue f ∧ Matched done f b.lines := by
  obtain ⟨f, doc, hserving, hfold, hemitted⟩ := h.serving
  have hcounter : s.queue.counter = s.mirror.nextTag := by
    have htags := congrArg List.length h.outbox
    rw [hout, List.filterMap_nil, List.length_nil, List.length_range'] at htags
    have := h.behind
    omega
  have hheard : heard = s.mirror.nextTag := by
    have := h.counter
    rw [hin, List.length_nil, Nat.add_zero] at this
    omega
  have hadds : s.mirror.pendingAdds = ∅ := by
    refine Finset.eq_empty_of_forall_notMem fun tag ht => ?_
    have := (h.adds tag).mp ht
    omega
  have hnone : ∀ tag, tag ∉ s.mirror.pendingRemovals := by
    intro tag ht
    have := h.removals tag ht
    omega
  have hremovals : s.mirror.pendingRemovals = ∅ :=
    Finmap.ext_lookup fun tag => by
      rw [Finmap.lookup_eq_none.mpr (hnone tag), Finmap.lookup_empty]
  have htext : text f = document b.lines := by
    rw [hout, List.foldlM_nil] at hfold
    obtain rfl := Option.some.inj hfold
    rw [← h.lines, ← hemitted.shown, hremovals]
    refine (List.filter_eq_self.mpr fun x _ => ?_).symm
    rw [Bool.not_eq_true', Bool.eq_false_iff, Ne, withheld_iff]
    rintro ⟨tag, ht, _⟩
    exact absurd ht Finmap.notMem_empty
  obtain ⟨_, _, hm⟩ := h.bench.file
  refine ⟨hadds, hremovals, hcounter, f, hserving, ⟨⟨htext, fun cell hc => ?_⟩, hserving.shape,
    fun x hx => ?_, hm.cells, fun y hy => ?_⟩⟩
  · obtain ⟨tag, hx, hv⟩ := h.cells cell hc
    obtain ⟨line, hline, hcl⟩ := List.mem_flatMap.mp hc
    have hin : cell.identity ∈ document b.lines := List.mem_flatten.mpr
      ⟨line.row, List.mem_map.mpr ⟨line, hline, rfl⟩,
        List.mem_cons_of_mem _ (List.mem_map.mpr ⟨cell, hcl, rfl⟩)⟩
    rw [hx, typed_value hserving (hx ▸ htext ▸ hin) hv]
  · rw [← h.next, ← hcounter]
    exact hserving.below x hx
  · refine (h.anchors y hy).imp id fun ht => ?_
    obtain ⟨tag, hx, hv⟩ := ht
    obtain ⟨line, hline, rfl⟩ := List.mem_map.mp hy
    have hin : line.anchor ∈ document b.lines := List.mem_flatten.mpr
      ⟨line.row, List.mem_map.mpr ⟨line, hline, rfl⟩, List.mem_cons_self⟩
    obtain ⟨rel, hrel, hval⟩ := Option.map_eq_some_iff.mp
      (typed_value hserving (hx ▸ htext ▸ hin) hv)
    exact ⟨rel, hx ▸ hrel, by rw [hval]; rfl⟩

/-- When nothing is under way, the file of the queue is the document of the client, and neither
side waits for anything. -/
theorem at_rest (hl : SharQueue.new dirPath (.ok [.file name (.ok [])]) peer = some (.ok q))
    (hr : q.tree.findFile path = some ref) (hrange : InRange 0 (played events))
    (hroom : (played events).countP isInsert < 2 ^ 32) (horder : InOrder events)
    (hrun : events.foldlM (Socket.step path) (connect q) = some s) (hout : s.outbox = [])
    (hin : s.inbox = []) :
    s.mirror.pendingAdds = ∅ ∧ s.mirror.pendingRemovals = ∅ ∧ Quiet s.queue ∧
      ∃ f, s.queue.tree.getFile ref = some f ∧ Mirrors f (resolved peer s.mirror.lines) ∧
        (PlainBreaks (played events) →
          f.projection = (resolved peer s.mirror.lines).map BenchMirror.Line.row) ∧
        ∀ tag < (played events).countP isInsert, (tag + 1, peer) ∈ f.characters := by
  obtain ⟨heard, b, _, _, h, _⟩ := linked_run (n := 0) (linked_start hl hr) rfl
    (by rwa [List.append_nil]) (by rwa [List.nil_append]) horder hrun
  rw [List.nil_append] at h
  obtain ⟨hadds, hremovals, hcounter, f, hserving, hm⟩ := linked_rest h hout hin
  refine ⟨hadds, hremovals, hserving.quiet, f, hserving.file, h.lines ▸ hm.toMirrors,
    fun hplain => ?_, fun tag ht => hserving.taken tag ?_⟩
  · rw [h.lines]
    exact BenchMirror.matched_rows hm hplain
  · rw [hcounter, h.next]
    exact ht

/-- All that is under way arrives. -/
def settled : List Event := underWay ++ [.serve 0, .serve 0, .serve 0, .hear, .hear]

theorem comes_to_rest (events : List Event)
    (h : (events.foldlM (Socket.step onF) (connect loadedF)).map
      (fun s => (s.outbox.isEmpty, s.inbox.isEmpty)) = some (true, true)) :
    ∃ s, events.foldlM (Socket.step onF) (connect loadedF) = some s ∧ s.outbox = [] ∧
      s.inbox = [] := by
  obtain ⟨s, hrun, hempty⟩ := Option.map_eq_some_iff.mp h
  rw [Prod.mk.injEq, List.isEmpty_iff, List.isEmpty_iff] at hempty
  exact ⟨s, hrun, hempty⟩

theorem at_rest_settled : ∃ s f, settled.foldlM (Socket.step onF) (connect loadedF) = some s ∧
    s.mirror.pendingAdds = ∅ ∧ s.mirror.pendingRemovals = ∅ ∧ Quiet s.queue ∧
    s.queue.tree.getFile ([], 0) = some f ∧
    f.projection = (resolved 5 s.mirror.lines).map BenchMirror.Line.row ∧
    (3, 5) ∈ f.characters := by
  obtain ⟨s, hrun, hout, hin⟩ := comes_to_rest settled (by decide +kernel)
  obtain ⟨hadds, hremovals, hquiet, f, hf, _, hrows, htaken⟩ := at_rest loadedF_new loadedF_finds
    (by simp [played, settled, underWay, InRange]) (by decide) (by simp [InOrder, settled, underWay])
    hrun hout hin
  refine ⟨s, f, hrun, hadds, hremovals, hquiet, hf, hrows ?_, htaken 2 (by decide)⟩
  intro offset value hin hbreak
  simp only [played, settled, underWay, List.cons_append, List.nil_append, List.filterMap_cons,
    List.filterMap_nil, List.mem_cons, BenchMirror.Edit.insert.injEq, reduceCtorEq,
    List.not_mem_nil, or_false] at hin
  rcases hin with ⟨_, rfl⟩ | ⟨_, rfl⟩ | ⟨_, rfl⟩
  · exact absurd hbreak (by decide)
  · rfl
  · exact absurd hbreak (by decide)

theorem overtaken_differs : (overtaken.foldlM (Socket.step onF) (connect loadedF)).map
    (fun s => (document (resolved 5 s.mirror.lines), (s.queue.tree.getFile ([], 0)).map text)) =
      some ([root, (1, 5), (2, 5)], some [root, (2, 5), (1, 5)]) := by
  decide +kernel

theorem burden_run {more : List Event} (h : Linked path ref peer done heard b s)
    (hroom : done.countP isInsert < 2 ^ 32) (hmore : played more = []) (horder : InOrder more)
    (hrun : more.foldlM (Socket.step path) s = some s') :
    more.length + burden s' ≤ burden s := by
  induction more generalizing heard s with
  | nil =>
    obtain rfl := Option.some.inj hrun
    simp
  | cons e more ih =>
    rw [List.foldlM_cons, Option.bind_eq_bind, Option.bind_eq_some_iff] at hrun
    obtain ⟨s₁, hs₁, hrun⟩ := hrun
    have hnext : ∀ {heard s₂}, s.step path e = some s₂ →
        Linked path ref peer done heard b s₂ → burden s₂ < burden s →
        played more = [] → (e :: more).length + burden s' ≤ burden s := by
      intro heard s₂ hs₂ h₂ hlt hmore
      obtain rfl := Option.some.inj (hs₂.symm.trans hs₁)
      have hrest := ih h₂ hmore (fun i hi => horder i (List.mem_cons_of_mem _ hi)) hrun
      rw [List.length_cons]
      omega
    cases e with
    | edit e => exact absurd hmore (by simp [played])
    | serve i =>
      obtain rfl := horder i List.mem_cons_self
      have hne : s.outbox ≠ [] := by
        intro he
        simp [Socket.step, he] at hs₁
      obtain ⟨s₂, hs₂, h₂, hlt⟩ := linked_serve h hne hroom
      exact hnext hs₂ h₂ hlt hmore
    | hear =>
      have hne : s.inbox ≠ [] := by
        intro he
        simp [Socket.step, he] at hs₁
      obtain ⟨s₂, hs₂, h₂, hlt⟩ := linked_hear h hne
      exact hnext hs₂ h₂ hlt hmore

/-- What can happen next: an edit in range, the oldest message or confirmation that is under
way. -/
def Possible (events : List Event) (s : Socket) : Event → Prop
  | .edit e => InRange 0 (played events ++ [e]) ∧
      (played events ++ [e]).countP isInsert < 2 ^ 32
  | .serve i => i = 0 ∧ s.outbox ≠ []
  | .hear => s.inbox ≠ []

/-- Neither the client nor the queue ever stops: what can happen next does, and the wait for
the messages under way ends. -/
theorem never_stuck (hl : SharQueue.new dirPath (.ok [.file name (.ok [])]) peer = some (.ok q))
    (hr : q.tree.findFile path = some ref) (hrange : InRange 0 (played events))
    (hroom : (played events).countP isInsert < 2 ^ 32) (horder : InOrder events)
    (hrun : events.foldlM (Socket.step path) (connect q) = some s) :
    (∀ e, Possible events s e → ∃ s', s.step path e = some s') ∧
    ∀ more s', played more = [] → InOrder more → more.foldlM (Socket.step path) s = some s' →
      more.length + burden s' ≤ burden s := by
  obtain ⟨heard, b, _, hb, h, _⟩ := linked_run (n := 0) (linked_start hl hr) rfl
    (by rwa [List.append_nil]) (by rwa [List.nil_append]) horder hrun
  rw [List.nil_append] at h
  refine ⟨fun e he => ?_, fun more s' hmore hmore' hrun' => ?_⟩
  · cases e with
    | edit e =>
      obtain ⟨_, b', n, hb', h', hn, hrest⟩ := linked_run (n := 0) (linked_start hl hr) rfl
        he.1 (by rwa [List.nil_append]) horder hrun
      rw [List.nil_append] at h'
      cases e with
      | insert offset value =>
        have hroom' := he.2
        rw [List.countP_append, List.countP_singleton, isInsert, if_pos rfl] at hroom'
        have hoff : offset < (document b'.lines).length := by
          have := hrest.1
          omega
        obtain ⟨s', _, hs', _⟩ := linked_insert h' hoff hroom'
        exact ⟨s', hs'⟩
      | delete offset =>
        have hoff : offset + 1 < (document b'.lines).length := by
          have := hrest.1
          omega
        obtain ⟨s', _, hs', _⟩ := linked_delete h' hoff
        exact ⟨s', hs'⟩
    | serve i =>
      obtain ⟨rfl, hne⟩ := he
      obtain ⟨s', hs', _⟩ := linked_serve h hne hroom
      exact ⟨s', hs'⟩
    | hear =>
      obtain ⟨s', hs', _⟩ := linked_hear h he
      exact ⟨s', hs'⟩
  · exact burden_run h hroom hmore hmore' hrun'

/-- A character is deleted while the next one has not been handled. -/
def busy : List Event :=
  [.edit (.insert 0 'a'), .edit (.insert 1 'b'), .serve 0, .hear, .edit (.delete 0)]

theorem never_stuck_busy : ∃ s, busy.foldlM (Socket.step onF) (connect loadedF) = some s ∧
    (∃ s', s.step onF (.serve 0) = some s') ∧
    (∃ s', s.step onF (.edit (.insert 1 '\n')) = some s') ∧
    ∀ more s', played more = [] → InOrder more → more.foldlM (Socket.step onF) s = some s' →
      more.length + burden s' ≤ 4 := by
  have hwaiting : (busy.foldlM (Socket.step onF) (connect loadedF)).map
      (fun s => (s.outbox.isEmpty, burden s)) = some (false, 4) := by decide +kernel
  obtain ⟨s, hrun, hs⟩ := Option.map_eq_some_iff.mp hwaiting
  rw [Prod.mk.injEq] at hs
  obtain ⟨hnext, hlast⟩ := never_stuck loadedF_new loadedF_finds
    (by simp [played, busy, InRange]) (by decide) (by simp [InOrder, busy]) hrun
  refine ⟨s, hrun, hnext (.serve 0) ⟨rfl, fun he => ?_⟩, hnext _ ⟨?_, by decide⟩,
    fun more s' hmore horder hrun' => hs.2 ▸ hlast more s' hmore horder hrun'⟩
  · rw [he] at hs
    exact absurd hs.1 (by simp)
  · simp [played, busy, InRange]

end Whole

end SocketRuns
