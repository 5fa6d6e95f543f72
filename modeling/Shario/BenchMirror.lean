import Shario.LandsOnce
import Shario.TextSplices

/-! The in-process benchmark of `bench.rs`: one writer, whose mirror of the document is
checked against the text of the trace only. -/
namespace BenchMirror

open CrdtTypes RowLayout FileTree CharacterTree FilePlacement FileSafety FileShape DirectoryTree
  ShareQueue TreeCalls QueueSteps IdeSteps QueueRuns TextSplices

structure Cell where
  id : ℕ
  peer : ℕ
  value : Char

structure Line where
  anchorId : ℕ
  anchorPeer : ℕ
  cells : List Cell

def Cell.identity (c : Cell) : Identity := (c.id, c.peer)
def Line.anchor (l : Line) : Identity := (l.anchorId, l.anchorPeer)

def Line.row (l : Line) : List Identity := l.anchor :: l.cells.map Cell.identity

def document (lines : List Line) : List Identity := (lines.map Line.row).flatten

/-- The loop of `locate`; running out of lines is its panic. -/
def locateFrom : List Line → (row acc offset : ℕ) → Option Position
  | [], _, _, _ => none
  | line :: lines, row, acc, offset =>
    if offset ≤ acc + line.cells.length then some (row, offset - acc)
    else locateFrom lines (row + 1) (acc + line.cells.length + 1) offset

def locate (lines : List Line) (offset : ℕ) : Option Position := locateFrom lines 0 0 offset

structure Bench where
  queue : SharQueue
  lines : List Line
  nextTag : ℕ

def start (queue : SharQueue) : Bench := ⟨queue, [⟨0, 0, []⟩], 0⟩

def confirmation : Callback → Option Identity
  | .ideAddConfirm confirmed => some (confirmed.id, confirmed.peer)
  | _ => none

/-- What `confirmed` holds after a call: the last confirmation that the call wrote. -/
def confirmed (q q' : SharQueue) : Option Identity :=
  ((q'.fired.drop q.fired.length).filterMap confirmation).getLast?

def leftOf (line : Line) (col0 : ℕ) : Option Identity :=
  if col0 = 0 then some line.anchor else line.cells[col0 - 1]?.map Cell.identity

/-- The end of `insert_char`, in which the confirmed character enters the lines. -/
def insertMirrored (lines : List Line) (line : Line) (row col0 id peer : ℕ) (value : Char) :
    Option (List Line) :=
  if value = '\n' then do
    let (cells, moved) ← splitOff line.cells col0
    insertAt (lines.set row { line with cells }) (row + 1) ⟨id, peer, moved⟩
  else do
    let cells ← insertAt line.cells col0 ⟨id, peer, value⟩
    some (lines.set row { line with cells })

def insertChar (filePath : PathBuf) (b : Bench) (offset : ℕ) (value : Char) : Option Bench := do
  let (row, col0) ← locate b.lines offset
  let line ← b.lines[row]?
  let parent ← leftOf line col0
  let nextTag ← tick b.nextTag
  let queue ← b.queue.addIdeOperation
    ⟨filePath, some parent.1, some parent.2, none, value, b.nextTag, row⟩
  let (id, peer) ← confirmed b.queue queue
  let lines ← insertMirrored b.lines line row col0 id peer value
  some ⟨queue, lines, nextTag⟩

def removeChar (filePath : PathBuf) (b : Bench) (offset : ℕ) : Option Bench := do
  let (row, col0) ← locate b.lines offset
  let line ← b.lines[row]?
  if col0 < line.cells.length then
    let cell ← line.cells[col0]?
    let cells ← removeAt line.cells col0
    let queue ← b.queue.removeIdeOperation ⟨filePath, cell.id, cell.peer, row⟩
    some ⟨queue, b.lines.set row { line with cells }, b.nextTag⟩
  else
    let next ← b.lines[row + 1]?
    let lines ← removeAt b.lines (row + 1)
    let queue ← b.queue.removeIdeOperation ⟨filePath, next.anchorId, next.anchorPeer, row + 1⟩
    some ⟨queue, lines.set row { line with cells := line.cells ++ next.cells }, b.nextTag⟩

inductive Edit where
  | insert (offset : ℕ) (value : Char)
  | delete (offset : ℕ)

def Edit.apply (filePath : PathBuf) (b : Bench) : Edit → Option Bench
  | .insert offset value => insertChar filePath b offset value
  | .delete offset => removeChar filePath b offset

def isInsert : Edit → Bool
  | .insert _ _ => true
  | .delete _ => false

/-- The offsets are those of a document that has `n` characters at first. -/
def InRange : (n : ℕ) → List Edit → Prop
  | _, [] => True
  | n, .insert offset _ :: edits => offset ≤ n ∧ InRange (n + 1) edits
  | n, .delete offset :: edits => offset < n ∧ InRange (n - 1) edits

/-- The line breaks among the inserted characters are all `'\n'`. -/
def PlainBreaks (edits : List Edit) : Prop :=
  ∀ offset value, .insert offset value ∈ edits → isLineBreak value = true → value = '\n'

/-- The file and the lines are one text, with the same values for cells. -/
structure Mirrors (f : SharFile) (lines : List Line) : Prop where
  text : text f = document lines
  values : ∀ cell ∈ lines.flatMap Line.cells,
    (f.characters.lookup cell.identity).map CrdtRelation.value = some cell.value

/-- Nothing waits, whether for the network or for an IDE. -/
structure Quiet (q : SharQueue) : Prop where
  ide : q.ideBacklog = ∅
  tag : q.ideTagBacklog = ∅
  network : q.networkBacklog = ∅
  ideWorklist : q.ideWorklist = []
  networkWorklist : q.networkWorklist = []

section Locate

variable {lines : List Line} {line : Line} {offset : ℕ} {u v : List Cell}

@[simp] theorem row_length (l : Line) : l.row.length = l.cells.length + 1 := by simp [Line.row]

@[simp] theorem document_nil : document [] = [] := rfl

@[simp] theorem document_cons (line : Line) (lines : List Line) :
    document (line :: lines) = line.row ++ document lines := rfl

@[simp] theorem document_append (A B : List Line) :
    document (A ++ B) = document A ++ document B := by
  simp [document]

theorem locateFrom_spec (row acc : ℕ) (h : offset < acc + (document lines).length)
    (hacc : acc ≤ offset) :
    ∃ A line B u v, lines = A ++ line :: B ∧ line.cells = u ++ v ∧
      acc + (document A).length + u.length = offset ∧
      locateFrom lines row acc offset = some (row + A.length, u.length) := by
  induction lines generalizing row acc with
  | nil =>
    simp only [document_nil, List.length_nil] at h
    omega
  | cons line lines ih =>
    rw [document_cons, List.length_append, row_length] at h
    rw [locateFrom]
    by_cases hle : offset ≤ acc + line.cells.length
    · have hlen : (line.cells.take (offset - acc)).length = offset - acc := by
        rw [List.length_take]
        omega
      rw [if_pos hle]
      refine ⟨[], line, lines, line.cells.take (offset - acc), line.cells.drop (offset - acc), rfl,
        (List.take_append_drop _ _).symm, ?_, ?_⟩
      · rw [hlen, document_nil, List.length_nil]
        omega
      · rw [hlen]
        rfl
    · obtain ⟨A, line', B, u, v, rfl, hcells, hoff, he⟩ := ih (row + 1)
        (acc + line.cells.length + 1) (by omega) (by omega)
      rw [if_neg hle]
      refine ⟨line :: A, line', B, u, v, rfl, hcells, ?_, ?_⟩
      · rw [document_cons, List.length_append, row_length]
        omega
      · rw [he, List.length_cons]
        congr 2
        omega

theorem locate_spec (h : offset < (document lines).length) :
    ∃ A line B u v, lines = A ++ line :: B ∧ line.cells = u ++ v ∧
      (document A).length + u.length = offset ∧ locate lines offset = some (A.length, u.length) := by
  obtain ⟨A, line, B, u, v, hl, hc, ho, he⟩ :=
    locateFrom_spec 0 0 (by simpa using h) (Nat.zero_le offset)
  rw [Nat.zero_add] at ho he
  exact ⟨A, line, B, u, v, hl, hc, ho, he⟩

theorem leftOf_spec (hcells : line.cells = u ++ v) : ∃ l parent,
    line.anchor :: u.map Cell.identity = l ++ [parent] ∧ leftOf line u.length = some parent := by
  rcases List.eq_nil_or_concat u with rfl | ⟨u, cell, rfl⟩
  · exact ⟨[], line.anchor, rfl, rfl⟩
  · exact ⟨line.anchor :: u.map Cell.identity, cell.identity, by simp, by simp [leftOf, hcells]⟩

end Locate

section Quiet

variable {q : SharQueue} {parent : Identity} {path : PathBuf} {value : Char} {row tag : ℕ}

theorem enlisted_quiet (hq : Quiet q) (op : IdeAdd) (n : ℕ) :
    enlisted q op n = q.confirmIde op.tag n := by
  have hnone : (q.confirmIde op.tag n).ideTagBacklog.lookup op.tag = none := by
    change q.ideTagBacklog.lookup op.tag = none
    rw [hq.tag]
    rfl
  simp [enlisted, SharQueue.queueTagBacklog, hnone]

/-- The queue in which the only add of a quiet one has landed. -/
def shownIn (q : SharQueue) (op : IdeAdd) (t : SharDirectory) (cb : Callback) : SharQueue :=
  (withTree (q.confirmIde op.tag (q.counter + 1)) t).fire cb

theorem quiet_shown (hq : Quiet q) (op : IdeAdd) (t : SharDirectory) (cb : Callback) :
    Quiet (shownIn q op t cb) :=
  ⟨hq.ide, hq.tag, hq.network, hq.ideWorklist, hq.networkWorklist⟩

theorem confirmed_shown (q : SharQueue) (op : IdeAdd) (t : SharDirectory) {cb : Callback}
    (hcb : confirmation cb = none) :
    confirmed q (shownIn q op t cb) = some (q.counter + 1, q.peer) := by
  have hfired : (shownIn q op t cb).fired =
      q.fired ++ [.ideAddConfirm ⟨op.tag, q.counter + 1, q.peer⟩, cb] := by
    simp [shownIn, SharQueue.confirmIde, SharQueue.fire, withTree]
  have hfirst : confirmation (.ideAddConfirm ⟨op.tag, q.counter + 1, q.peer⟩) =
      some (q.counter + 1, q.peer) := rfl
  rw [confirmed, hfired, List.drop_left, List.filterMap_cons_some hfirst,
    List.filterMap_cons_none hcb]
  rfl

/-- An add that cannot fail lands in its own call, which leaves nothing behind. -/
theorem quiet_lands (hq : Quiet q) (hs : AllFiles Sound q.tree) (hroom : q.counter + 1 < 2 ^ 32)
    (op : IdeAdd)
    (hparent : (q.confirmIde op.tag (q.counter + 1)).ideParent op = some parent)
    (hlands : ∀ o t, TreeAdded q.tree op.filePath (ideCrdt op (q.counter + 1, q.peer) parent) o t →
      ∃ pos, o = .ok (some pos)) :
    ∃ t pos, TreeAdded q.tree op.filePath (ideCrdt op (q.counter + 1, q.peer) parent)
      (.ok (some pos)) t ∧
      q.addIdeOperation op = some (shownIn q op t
        (ideShown (withTree (q.confirmIde op.tag (q.counter + 1)) t) op (q.counter + 1, q.peer)
          parent pos)) := by
  have hn : tick q.counter = some (q.counter + 1) := tick_eq_some.mpr ⟨hroom, rfl⟩
  have hnew : q.ideBacklog.lookup (q.counter + 1, q.peer) = none := by
    rw [hq.ide]
    rfl
  have htag : (q.confirmIde op.tag (q.counter + 1)).tagIdentities.lookup op.tag =
      some (q.counter + 1, q.peer) := Finmap.lookup_insert _
  rw [LandsOnce.addIde_eq hs hn hnew, enlisted_quiet hq]
  rcases retryIde_cases (q := q.confirmIde op.tag (q.counter + 1)) hs op with
    ⟨q₁, he, hr⟩ | ⟨_, hc⟩
  swap
  · rcases hc with ⟨hc, _⟩ | ⟨_, hc⟩
    · rw [hparent] at hc
      exact absurd hc (by simp)
    · rw [htag] at hc
      exact absurd hc (by simp)
  have hown : ∀ {x p o t}, (q.confirmIde op.tag (q.counter + 1)).ideParent op = some p →
      (q.confirmIde op.tag (q.counter + 1)).tagIdentities.lookup op.tag = some x →
      TreeAdded q.tree op.filePath (ideCrdt op x p) o t →
      p = parent ∧ x = (q.counter + 1, q.peer) ∧ ∃ pos, o = .ok (some pos) := by
    intro x p o t hp hx ha
    rw [hparent, Option.some.injEq] at hp
    rw [htag, Option.some.injEq] at hx
    subst hp hx
    exact ⟨rfl, rfl, hlands o t ha⟩
  cases hr with
  | held hh =>
    cases hh with
    | untagged hp _ =>
      rw [hparent] at hp
      exact absurd hp (by simp)
    | repeated hp hx ha =>
      obtain ⟨_, _, pos, ho⟩ := hown hp hx ha
      exact absurd ho (by simp)
    | early hp hx ha =>
      obtain ⟨_, _, pos, ho⟩ := hown hp hx ha
      exact absurd ho (by simp)
  | @landed x p pos t hl =>
    obtain ⟨rfl, rfl, _⟩ := hown hl.resolved hl.tagged hl.added
    have hsame : (withTree (q.confirmIde op.tag (q.counter + 1)) t).queueIdeBacklog
        (q.counter + 1, q.peer) = withTree (q.confirmIde op.tag (q.counter + 1)) t := by
      have hnone : (withTree (q.confirmIde op.tag (q.counter + 1)) t).ideBacklog.lookup
          (q.counter + 1, q.peer) = none := hnew
      simp [SharQueue.queueIdeBacklog, hnone]
    rw [hsame] at he
    refine ⟨t, pos, hl.added, ?_⟩
    rw [he]
    exact drainIde_idle hq.ideWorklist

theorem quiet_add (hq : Quiet q) (hs : AllFiles Sound q.tree) (hroom : q.counter + 1 < 2 ^ 32)
    (op : IdeAdd)
    (hparent : (q.confirmIde op.tag (q.counter + 1)).ideParent op = some parent)
    (hlands : ∀ o t, TreeAdded q.tree op.filePath (ideCrdt op (q.counter + 1, q.peer) parent) o t →
      ∃ pos, o = .ok (some pos)) :
    ∃ t pos cb, TreeAdded q.tree op.filePath (ideCrdt op (q.counter + 1, q.peer) parent)
      (.ok (some pos)) t ∧ confirmation cb = none ∧
      q.addIdeOperation op = some (shownIn q op t cb) := by
  obtain ⟨t, pos, ht, he⟩ := quiet_lands hq hs hroom op hparent hlands
  exact ⟨t, pos, _, ht, rfl, he⟩

theorem quiet_remove (hs : AllFiles Sound q.tree) {op : Remove} (hx : op.identity ≠ root)
    (hsafe : ¬ BreakOnTop q.tree op.filePath op.identity)
    (hfalls : ∀ o t, TreeRemoved q.tree op.filePath op.identity o t → ∃ pos, o = .ok (some pos)) :
    ∃ t pos cb, TreeRemoved q.tree op.filePath op.identity (.ok (some pos)) t ∧
      q.removeIdeOperation op = some ((withTree q t).fire cb) := by
  rcases removeIde_cases hs op with ⟨q', he, hr⟩ | ⟨_, _, hb⟩
  swap
  · exact absurd hb hsafe
  cases hr with
  | rootRemove hr => exact absurd hr hx
  | fallen _ ht => exact ⟨_, _, _, ht, he⟩
  | again _ ht =>
    obtain ⟨pos, ho⟩ := hfalls _ _ ht
    exact absurd ho (by simp)
  | early _ ht =>
    obtain ⟨pos, ho⟩ := hfalls _ _ ht
    exact absurd ho (by simp)

end Quiet

/-- What ties the lines to the file they mirror; `done` are the edits so far. -/
structure Matched (done : List Edit) (f : SharFile) (lines : List Line) : Prop
    extends Mirrors f lines where
  shape : Shape f
  below : ∀ x ∈ f.characters, x.1 ≤ done.countP isInsert
  cells : ∀ cell ∈ lines.flatMap Line.cells,
    cell.value ≠ '\n' ∧ ∃ offset, .insert offset cell.value ∈ done
  anchors : ∀ x ∈ lines.map Line.anchor, x = root ∨ Breaks f.characters x

structure Mirroring (path : PathBuf) (ref : FileRef) (done : List Edit) (b : Bench) : Prop where
  routed : b.queue.tree.findFile path = some ref
  sound : AllFiles Sound b.queue.tree
  quiet : Quiet b.queue
  counter : b.queue.counter = done.countP isInsert
  tag : b.nextTag = done.countP isInsert
  file : ∃ f, b.queue.tree.getFile ref = some f ∧ Matched done f b.lines

section Files

variable {done : List Edit} {f g : SharFile} {lines lines' : List Line} {o : Outcome}
  {parent : Identity} {l r : List Identity} {offset peer : ℕ} {value : Char} {x : Identity}

theorem matched_added (h : Matched done f lines) (hdoc : document lines = l ++ parent :: r)
    (hdoc' : document lines' = l ++ parent :: (done.countP isInsert + 1, peer) :: r)
    (hcells : ∀ cell ∈ lines'.flatMap Line.cells, cell ∈ lines.flatMap Line.cells ∨
      cell = ⟨done.countP isInsert + 1, peer, value⟩ ∧ value ≠ '\n')
    (hanchors : ∀ y ∈ lines'.map Line.anchor, y ∈ lines.map Line.anchor ∨
      y = (done.countP isInsert + 1, peer) ∧ value = '\n')
    (ha : Added f ⟨done.countP isInsert + 1, peer, .new value parent.1 parent.2⟩ o g) :
    (∃ pos, o = .ok (some pos)) ∧ Matched (done ++ [.insert offset value]) g lines' := by
  have hcount : (done ++ [Edit.insert offset value]).countP isInsert = done.countP isInsert + 1 := by
    rw [List.countP_append]
    rfl
  generalize hn : done.countP isInsert = n at *
  have hnew : ∀ y ∈ f.characters, y.1 < n + 1 := fun y hy => Nat.lt_succ_of_le (hn ▸ h.below y hy)
  have hold : ∀ y ∈ f.characters, y ≠ (n + 1, peer) := by
    rintro y hy rfl
    exact lt_irrefl _ (hnew _ hy)
  obtain ⟨hpos, hg, htext, hchars⟩ := first_added h.shape (h.text.trans hdoc)
    (fun hm => hold _ hm rfl) (newest_first hnew _) rfl ha
  have hkept : ∀ y ∈ f.characters, g.characters.lookup y = f.characters.lookup y := by
    intro y hy
    rw [hchars]
    exact Finmap.lookup_insert_of_ne _ (hold y hy)
  refine ⟨hpos, ⟨?_, fun cell hc => ?_⟩, hg, fun y hy => ?_, fun cell hc => ?_, fun y hy => ?_⟩
  · rw [hdoc']
    exact htext
  · rcases hcells cell hc with hc | ⟨rfl, _⟩
    · have hv := h.values cell hc
      obtain ⟨rel, hrel, _⟩ := Option.map_eq_some_iff.mp hv
      rw [hkept _ (Finmap.mem_iff.mpr ⟨rel, hrel⟩)]
      exact hv
    · rw [hchars]
      exact congrArg _ (Finmap.lookup_insert _)
  · rw [hcount]
    rw [hchars] at hy
    rcases Finmap.mem_insert.mp hy with rfl | hy
    · exact le_rfl
    · exact (hn ▸ h.below y hy).trans (Nat.le_succ n)
  · rcases hcells cell hc with hc | ⟨rfl, hv⟩
    · obtain ⟨hv, off, hin⟩ := h.cells cell hc
      exact ⟨hv, off, List.mem_append_left _ hin⟩
    · exact ⟨hv, offset, by simp⟩
  · rcases hanchors y hy with hy | ⟨rfl, rfl⟩
    · refine (h.anchors y hy).imp id fun hb => ?_
      obtain ⟨rel, hrel, hv⟩ := hb
      exact ⟨rel, by rw [hkept y (Finmap.mem_iff.mpr ⟨rel, hrel⟩)]; exact hrel, hv⟩
    · apply Or.inr
      rw [hchars]
      exact breaks_insert_self.mpr rfl

theorem matched_removed (h : Matched done f lines) (hx : x ≠ root)
    (hdoc : document lines = l ++ x :: r) (hdoc' : document lines' = l ++ r)
    (hcells : ∀ cell ∈ lines'.flatMap Line.cells, cell ∈ lines.flatMap Line.cells)
    (hanchors : ∀ y ∈ lines'.map Line.anchor, y ∈ lines.map Line.anchor)
    (hr : Removed f x o g) :
    (∃ pos, o = .ok (some pos)) ∧ Matched (done ++ [.delete offset]) g lines' := by
  have hcount : (done ++ [Edit.delete offset]).countP isInsert = done.countP isInsert := by
    rw [List.countP_append]
    rfl
  obtain ⟨hpos, hg, htext, rel, hrel, hchars⟩ := live_removed h.shape hx (h.text.trans hdoc) hr
  refine ⟨hpos, ⟨?_, fun cell hc => ?_⟩, hg, fun y hy => ?_, fun cell hc => ?_, fun y hy => ?_⟩
  · rw [hdoc']
    exact htext
  · have hv := h.values cell (hcells cell hc)
    rw [hchars]
    by_cases he : cell.identity = x
    · rw [he, hrel] at hv
      rw [he, mark, Finmap.lookup_insert]
      exact hv
    · rw [mark, Finmap.lookup_insert_of_ne _ he]
      exact hv
  · rw [hcount]
    rw [hchars] at hy
    exact h.below y ((mem_mark hrel).mp hy)
  · obtain ⟨hv, off, hin⟩ := h.cells cell (hcells cell hc)
    exact ⟨hv, off, List.mem_append_left _ hin⟩
  · rw [hchars, breaks_mark hrel]
    exact h.anchors y (hanchors y hy)

theorem matched_rows (h : Matched done f lines) (hplain : PlainBreaks done) :
    f.projection = lines.map Line.row := by
  refine layout_unique h.shape.layout ?_ h.text
  obtain ⟨u, B, hhead⟩ := h.shape.headed
  have htext := h.text
  have hnodup := h.shape.nodup
  have hcells : ∀ line ∈ lines, ∀ x ∈ line.cells.map Cell.identity, ¬ Breaks f.characters x := by
    intro line hline x hx hb
    obtain ⟨cell, hc, rfl⟩ := List.mem_map.mp hx
    have hin : cell ∈ lines.flatMap Line.cells := List.mem_flatMap.mpr ⟨line, hline, hc⟩
    obtain ⟨hv, off, hdone⟩ := h.cells cell hin
    obtain ⟨rel, hrel, hbreak⟩ := hb
    have hval := h.values cell hin
    rw [hrel, Option.map_some, Option.some.injEq] at hval
    exact hv (hplain off cell.value hdone (hval ▸ hbreak))
  rw [← text, htext] at hnodup
  rw [text, hhead] at htext
  cases lines with
  | nil => simp at htext
  | cons line lines =>
    rw [document_cons, Line.row] at htext hnodup
    simp only [List.flatten_cons, List.cons_append, List.cons.injEq] at htext
    refine ⟨fun x hx => ?_, fun row hrow => ?_⟩
    · rcases List.mem_cons.mp hx with rfl | hx
      · rw [← htext.1]
        exact h.shape.rooted.root_not_breaks
      · exact hcells line (by simp) x hx
    · obtain ⟨line', hline', rfl⟩ := List.mem_map.mp hrow
      refine ⟨line'.anchor, _, rfl, ?_, hcells line' (by simp [hline'])⟩
      refine (h.anchors line'.anchor ?_).resolve_left fun he => ?_
      · simp only [List.map_cons, List.mem_cons, List.mem_map]
        exact Or.inr ⟨line', hline', rfl⟩
      · have hin : line'.anchor ∈ document lines := by
          rw [document, List.mem_flatten]
          exact ⟨line'.row, List.mem_map.mpr ⟨line', hline', rfl⟩, by simp [Line.row]⟩
        rw [List.cons_append, List.nodup_cons, ← htext.1, ← he] at hnodup
        exact hnodup.1 (List.mem_append_right _ hin)

end Files

section Steps

variable {path : PathBuf} {ref : FileRef} {done : List Edit} {b : Bench} {offset : ℕ}
  {value : Char} {t u : SharDirectory} {f : SharFile} {c : CRDT} {o : Outcome} {x : Identity}

theorem insertMirrored_spec (A B : List Line) (line : Line) {u v : List Cell}
    (hcells : line.cells = u ++ v) (id peer : ℕ) (value : Char) : ∃ lines,
      insertMirrored (A ++ line :: B) line A.length u.length id peer value = some lines ∧
      document lines = (document A ++ line.anchor :: u.map Cell.identity) ++
        (id, peer) :: (v.map Cell.identity ++ document B) ∧
      (∀ cell ∈ lines.flatMap Line.cells, cell ∈ (A ++ line :: B).flatMap Line.cells ∨
        cell = ⟨id, peer, value⟩ ∧ value ≠ '\n') ∧
      (∀ y ∈ lines.map Line.anchor, y ∈ (A ++ line :: B).map Line.anchor ∨
        y = (id, peer) ∧ value = '\n') := by
  rw [insertMirrored]
  by_cases hv : value = '\n'
  · refine ⟨A ++ { line with cells := u } :: ⟨id, peer, v⟩ :: B, ?_, ?_, fun cell hc => ?_,
      fun y hy => ?_⟩
    · simp only [if_pos hv, hcells, splitOff_append, Option.bind_eq_bind, Option.bind_some,
        set_middle, insertAt_behind]
    · simp [Line.row, Line.anchor]
    · apply Or.inl
      simp only [List.flatMap_append, List.flatMap_cons, List.mem_append, hcells] at hc ⊢
      tauto
    · simp only [List.map_append, List.map_cons, List.mem_append, List.mem_cons] at hy ⊢
      rcases hy with hy | rfl | rfl | hy
      · exact Or.inl (Or.inl hy)
      · exact Or.inl (Or.inr (Or.inl rfl))
      · exact Or.inr ⟨rfl, hv⟩
      · exact Or.inl (Or.inr (Or.inr hy))
  · refine ⟨A ++ { line with cells := u ++ ⟨id, peer, value⟩ :: v } :: B, ?_, ?_, fun cell hc => ?_,
      fun y hy => ?_⟩
    · simp only [if_neg hv, hcells, insertAt_append, Option.bind_eq_bind, Option.bind_some,
        set_middle]
    · simp [Line.row, Line.anchor, Cell.identity]
    · simp only [List.flatMap_append, List.flatMap_cons, List.mem_append, List.mem_cons, hcells]
        at hc ⊢
      tauto
    · apply Or.inl
      simp only [List.map_append, List.map_cons, List.mem_append, List.mem_cons] at hy ⊢
      exact hy

theorem insert_step (value : Char) (h : Mirroring path ref done b)
    (hoff : offset < (document b.lines).length)
    (hroom : done.countP isInsert + 1 < 2 ^ 32) : ∃ b', insertChar path b offset value = some b' ∧
      Mirroring path ref (done ++ [.insert offset value]) b' ∧
      (document b'.lines).length = (document b.lines).length + 1 := by
  obtain ⟨f, hf, hm⟩ := h.file
  obtain ⟨A, line, B, u, v, hl, hcells, _, hloc⟩ := locate_spec hoff
  obtain ⟨l, parent, hpar, hparent⟩ := leftOf_spec hcells
  obtain ⟨lines, hlines, hdoc', hcell', hanchor'⟩ := insertMirrored_spec A B line hcells
    (b.queue.counter + 1) b.queue.peer value
  have hline : b.lines[A.length]? = some line := by
    rw [hl]
    simp
  have hdoc : document b.lines =
      (document A ++ l) ++ parent :: (v.map Cell.identity ++ document B) := by
    have hsplit : document b.lines = (document A ++ (line.anchor :: u.map Cell.identity)) ++
        (v.map Cell.identity ++ document B) := by
      simp [hl, Line.row, hcells]
    rw [hsplit, hpar]
    simp
  rw [hpar] at hdoc'
  have hmatched : ∀ o g,
      Added f ⟨b.queue.counter + 1, b.queue.peer, .new value parent.1 parent.2⟩ o g →
      (∃ pos, o = .ok (some pos)) ∧ Matched (done ++ [.insert offset value]) g lines := by
    intro o g ha
    rw [h.counter] at ha hdoc' hcell' hanchor'
    refine matched_added hm hdoc ?_ ?_ ?_ ha
    · rw [hdoc']
      simp
    · rw [hl]
      exact hcell'
    · rw [hl]
      exact hanchor'
  have hlands : ∀ o t, TreeAdded b.queue.tree path
      ⟨b.queue.counter + 1, b.queue.peer, .new value parent.1 parent.2⟩ o t →
        ∃ pos, o = .ok (some pos) := by
    intro o t ha
    obtain ⟨g, hg, _⟩ := routed_added h.routed hf ha
    exact (hmatched o g hg).1
  have htick : ∀ n, n = done.countP isInsert → tick n = some (n + 1) := by
    rintro n rfl
    exact tick_eq_some.mpr ⟨hroom, rfl⟩
  obtain ⟨t, pos, cb, ht, hcb, hadd⟩ := quiet_add h.quiet h.sound (by rw [h.counter]; exact hroom)
    ⟨path, some parent.1, some parent.2, none, value, b.nextTag, A.length⟩ rfl hlands
  obtain ⟨g, hg, hgf⟩ := routed_added h.routed hf ht
  refine ⟨⟨shownIn b.queue ⟨path, some parent.1, some parent.2, none, value, b.nextTag, A.length⟩ t cb,
    lines, b.nextTag + 1⟩, ?_, ⟨?_, ht.sound h.sound, quiet_shown h.quiet _ _ _, ?_, ?_, ?_⟩, ?_⟩
  · simp only [insertChar, hloc, hline, hparent, htick _ h.tag, hadd, Option.bind_eq_bind,
      Option.bind_some, confirmed_shown _ _ _ hcb]
    rw [hl, hlines]
    rfl
  · exact (ht.routes.findFile path).trans h.routed
  · rw [List.countP_append]
    exact congrArg (· + 1) h.counter
  · rw [List.countP_append]
    exact congrArg (· + 1) h.tag
  · exact ⟨g, hgf, (hmatched _ g hg).2⟩
  · rw [hdoc', hdoc]
    simp only [List.length_append, List.length_cons, List.length_nil]
    omega

theorem behind_first (h : Shape f) {y : Identity} {l r : List Identity}
    (htext : text f = (y :: l) ++ x :: r) : x ≠ root := by
  obtain ⟨u, B, hrows⟩ := h.headed
  have hn := h.nodup
  have hroot : root = y := by
    rw [text, hrows] at htext
    exact (List.cons.inj htext).1
  rw [← text, htext, List.cons_append, List.nodup_cons] at hn
  rintro rfl
  exact hn.1 (by simp [hroot])

theorem removed_lines (path : PathBuf) (b : Bench) (hoff : offset + 1 < (document b.lines).length) :
    ∃ lines y l x r op, op.filePath = path ∧ op.identity = x ∧
      document b.lines = (y :: l) ++ x :: r ∧ document lines = (y :: l) ++ r ∧
      (∀ cell ∈ lines.flatMap Line.cells, cell ∈ b.lines.flatMap Line.cells) ∧
      (∀ y ∈ lines.map Line.anchor, y ∈ b.lines.map Line.anchor) ∧
      removeChar path b offset =
        (b.queue.removeIdeOperation op).map fun queue => ⟨queue, lines, b.nextTag⟩ := by
  have hin : offset < (document b.lines).length := by omega
  obtain ⟨A, line, B, u, v, hl, hcells, hlen, hloc⟩ := locate_spec hin
  have hline : b.lines[A.length]? = some line := by
    rw [hl]
    simp
  have hhead : ∀ rest : List Identity, ∃ y l, document A ++ line.anchor :: rest = y :: l := by
    intro rest
    cases document A <;> simp
  obtain ⟨y, l, hyl⟩ := hhead (u.map Cell.identity)
  have hdoc : document b.lines = (y :: l) ++ (v.map Cell.identity ++ document B) := by
    rw [← hyl]
    simp [hl, Line.row, hcells]
  cases v with
  | cons cell v =>
    refine ⟨A ++ { line with cells := u ++ v } :: B, y, l, cell.identity,
      v.map Cell.identity ++ document B, ⟨path, cell.id, cell.peer, A.length⟩, rfl, rfl, ?_, ?_,
      fun c hc => ?_, fun y hy => ?_, ?_⟩
    · rw [hdoc]
      rfl
    · rw [← hyl]
      simp [Line.row, Line.anchor]
    · rw [hl]
      simp only [List.flatMap_append, List.flatMap_cons, List.mem_append, List.mem_cons,
        hcells] at hc ⊢
      tauto
    · rw [hl]
      simp only [List.map_append, List.map_cons] at hy ⊢
      exact hy
    · have hcol : u.length < (u ++ cell :: v).length := by simp
      have hget : (u ++ cell :: v)[u.length]? = some cell := by simp
      rw [hl] at hloc hline
      simp only [removeChar, hl, hloc, hline, hcells, if_pos hcol, hget, removeAt_append,
        Option.bind_eq_bind, Option.bind_some, set_middle]
      cases b.queue.removeIdeOperation ⟨path, cell.id, cell.peer, A.length⟩ <;> rfl
  | nil =>
    cases B with
    | nil =>
      have hcount := congrArg List.length hdoc
      have hyl := congrArg List.length hyl
      simp only [List.length_append, List.length_cons, List.length_map, document_nil, List.map_nil,
        List.length_nil] at hcount hyl
      omega
    | cons next B =>
      refine ⟨A ++ { line with cells := line.cells ++ next.cells } :: B, y, l, next.anchor,
        next.cells.map Cell.identity ++ document B,
        ⟨path, next.anchorId, next.anchorPeer, A.length + 1⟩,
        rfl, rfl, ?_, ?_, fun c hc => ?_, fun y hy => ?_, ?_⟩
      · rw [hdoc]
        rfl
      · rw [← hyl]
        simp [Line.row, Line.anchor, hcells]
      · rw [hl]
        simp only [List.flatMap_append, List.flatMap_cons, List.mem_append] at hc ⊢
        tauto
      · rw [hl]
        simp only [List.map_append, List.map_cons, List.mem_append, List.mem_cons] at hy ⊢
        tauto
      · have hcol : ¬ u.length < line.cells.length := by simp [hcells]
        rw [hl] at hloc hline
        simp only [removeChar, hl, hloc, hline, if_neg hcol, getElem?_behind, List.head?_cons,
          removeAt_behind, Option.bind_eq_bind, Option.bind_some, set_middle]
        cases b.queue.removeIdeOperation ⟨path, next.anchorId, next.anchorPeer, A.length + 1⟩ <;> rfl

theorem remove_step (h : Mirroring path ref done b)
    (hoff : offset + 1 < (document b.lines).length) : ∃ b', removeChar path b offset = some b' ∧
      Mirroring path ref (done ++ [.delete offset]) b' ∧
      (document b'.lines).length + 1 = (document b.lines).length := by
  obtain ⟨f, hf, hm⟩ := h.file
  obtain ⟨lines, y, l, x, r, op, rfl, rfl, hdoc, hdoc', hcells, hanchors, he⟩ :=
    removed_lines path b hoff
  have hx : op.identity ≠ root := behind_first hm.shape (hm.text.trans hdoc)
  have hmatched : ∀ o g, Removed f op.identity o g →
      (∃ pos, o = .ok (some pos)) ∧ Matched (done ++ [.delete offset]) g lines :=
    fun o g hr => matched_removed hm hx hdoc hdoc' hcells hanchors hr
  have hsafe : ¬ BreakOnTop b.queue.tree op.filePath op.identity := by
    rintro ⟨ref', f', hr, hf', hb⟩
    rw [h.routed, Option.some.injEq] at hr
    subst hr
    rw [hf, Option.some.injEq] at hf'
    subst hf'
    exact shape_no_break_on_top hm.shape hb
  obtain ⟨t, pos, cb, ht, hremove⟩ := quiet_remove h.sound hx hsafe fun o t ht => by
    obtain ⟨g, hg, _⟩ := routed_removed h.routed hf ht
    exact (hmatched o g hg).1
  obtain ⟨g, hg, hgf⟩ := routed_removed h.routed hf ht
  have hquiet : Quiet ((withTree b.queue t).fire cb) :=
    ⟨h.quiet.ide, h.quiet.tag, h.quiet.network, h.quiet.ideWorklist, h.quiet.networkWorklist⟩
  refine ⟨⟨(withTree b.queue t).fire cb, lines, b.nextTag⟩, ?_,
    ⟨?_, ht.sound hx h.sound, hquiet, ?_, ?_, ?_⟩, ?_⟩
  · rw [he, hremove]
    rfl
  · exact (ht.routes.findFile _).trans h.routed
  · rw [List.countP_append]
    exact h.counter
  · rw [List.countP_append]
    exact h.tag
  · exact ⟨g, hgf, (hmatched _ g hg).2⟩
  · rw [hdoc', hdoc]
    simp only [List.length_append, List.length_cons]
    omega

theorem mirror_run {edits : List Edit} {n : ℕ} (h : Mirroring path ref done b)
    (hn : (document b.lines).length = n + 1) (hrange : InRange n edits)
    (hroom : (done ++ edits).countP isInsert < 2 ^ 32) :
    ∃ b', edits.foldlM (Edit.apply path) b = some b' ∧ Mirroring path ref (done ++ edits) b' := by
  induction edits generalizing done b n with
  | nil => exact ⟨b, rfl, by simpa using h⟩
  | cons edit edits ih =>
    have hassoc : done ++ edit :: edits = (done ++ [edit]) ++ edits := by simp
    rw [hassoc] at hroom ⊢
    rw [List.foldlM_cons]
    cases edit with
    | insert offset value =>
      have hin : offset < (document b.lines).length := by
        have := hrange.1
        omega
      have htick : done.countP isInsert + 1 < 2 ^ 32 := by
        rw [List.countP_append, List.countP_append] at hroom
        simp only [List.countP_singleton, isInsert, if_true] at hroom
        omega
      obtain ⟨b₁, hb₁, h₁, hlen⟩ := insert_step value h hin htick
      obtain ⟨b', hb', h'⟩ := ih h₁ (hlen.trans (congrArg (· + 1) hn)) hrange.2 hroom
      exact ⟨b', by rw [Edit.apply, hb₁]; exact hb', h'⟩
    | delete offset =>
      have hin : offset + 1 < (document b.lines).length := by
        have := hrange.1
        omega
      obtain ⟨b₁, hb₁, h₁, hlen⟩ := remove_step h hin
      obtain ⟨b', hb', h'⟩ := ih h₁ (by have := hrange.1; omega) hrange.2 hroom
      exact ⟨b', by rw [Edit.apply, hb₁]; exact hb', h'⟩

end Steps

structure Agrees (ref : FileRef) (done : List Edit) (b : Bench) : Prop where
  file : ∃ f, b.queue.tree.getFile ref = some f ∧ Mirrors f b.lines ∧
    (PlainBreaks done → f.projection = b.lines.map Line.row)
  quiet : Quiet b.queue

section Scripts

variable {dirPath path : PathBuf} {name : String} {peer : ℕ} {q : SharQueue} {ref : FileRef}

/-- A directory with one empty file, as it is loaded. -/
theorem loaded_empty
    (hl : SharQueue.new dirPath (.ok [.file name (.ok [])]) peer = some (.ok q)) :
    q.counter = 0 ∧ ∀ ref f, q.tree.getFile ref = some f →
      f = emptyFile (dirPath ++ [.normal name]) := by
  obtain ⟨ht, _, _⟩ := PathRouting.new_tree hl
  have hone : some (Except.ok
      (SharDirectory.mk dirPath [] [emptyFile (dirPath ++ [.normal name])], 0)) =
      some (Except.ok (q.tree, q.counter)) := ht
  rw [Option.some.injEq, Except.ok.injEq, Prod.mk.injEq] at hone
  refine ⟨hone.2.symm, fun ref f hf => ?_⟩
  have hin : f ∈ q.tree.files := mem_files.mpr ⟨ref, hf⟩
  rw [← hone.1] at hin
  exact List.mem_singleton.mp hin

theorem start_mirroring
    (hl : SharQueue.new dirPath (.ok [.file name (.ok [])]) peer = some (.ok q))
    (hr : q.tree.findFile path = some ref) : Mirroring path ref [] (start q) := by
  obtain ⟨_, _, hq⟩ := PathRouting.new_tree hl
  obtain ⟨hcounter, hfiles⟩ := loaded_empty hl
  obtain ⟨f, hf⟩ := SharDirectory.getFile_of_findFile hr
  have hempty := hfiles ref f hf
  have hshape := emptyFile_shape (dirPath ++ [.normal name])
  refine ⟨hr, ?_, ?_, hcounter, rfl, f, hf, ⟨⟨?_, ?_⟩, ?_, ?_, ?_, ?_⟩⟩
  · exact fun ref f hf => ((NewIdentities.loaded_below hl).1.files ref f hf).1
  · rw [hq]
    exact ⟨rfl, rfl, rfl, rfl, rfl⟩
  · rw [hempty]
    rfl
  · exact fun cell hc => absurd hc (by simp [start])
  · exact hempty ▸ hshape
  · intro x hx
    rw [hempty, emptyFile] at hx
    rcases Finmap.mem_insert.mp hx with rfl | hx
    · exact le_rfl
    · exact absurd hx Finmap.notMem_empty
  · exact fun cell hc => absurd hc (by simp [start])
  · intro x hx
    exact Or.inl (by simpa [start, Line.anchor, root] using hx)

/-- The queue of a single writer and its mirror are one document after every edit. -/
theorem bench_agrees (hl : SharQueue.new dirPath (.ok [.file name (.ok [])]) peer = some (.ok q))
    (hr : q.tree.findFile path = some ref) {edits : List Edit} (hrange : InRange 0 edits)
    (hroom : edits.countP isInsert < 2 ^ 32 - 1) :
    ∀ done rest, edits = done ++ rest →
      ∃ b, done.foldlM (Edit.apply path) (start q) = some b ∧ Agrees ref done b := by
  rintro done rest rfl
  have hfront : ∀ {done : List Edit} {n : ℕ}, InRange n (done ++ rest) → InRange n done := by
    intro done
    induction done with
    | nil => exact fun _ => trivial
    | cons edit done ih =>
      cases edit with
      | insert offset value => exact fun h => ⟨h.1, ih h.2⟩
      | delete offset => exact fun h => ⟨h.1, ih h.2⟩
  rw [List.countP_append] at hroom
  obtain ⟨b, hb, h⟩ := mirror_run (n := 0) (start_mirroring hl hr) rfl
    (hfront hrange) (by rw [List.nil_append]; omega)
  rw [List.nil_append] at h
  obtain ⟨f, hf, hm⟩ := h.file
  exact ⟨b, hb, ⟨f, hf, hm.toMirrors, matched_rows hm⟩, h.quiet⟩

end Scripts

/-- Two lines are typed, and joined again. -/
def twoLines : List Edit :=
  [.insert 0 'a', .insert 1 '\n', .insert 2 'b', .insert 0 'c', .delete 2, .delete 0]

theorem bench_agrees_two_lines : ∃ q b, SharQueue.new [.rootDir, .normal "s"]
    (.ok [.file "f" (.ok [])]) 0 = some (.ok q) ∧
    twoLines.foldlM (Edit.apply [.rootDir, .normal "s", .normal "f"]) (start q) = some b ∧
    Agrees ([], 0) twoLines b := by
  have hq : ∃ q, SharQueue.new [.rootDir, .normal "s"] (.ok [.file "f" (.ok [])]) 0 =
      some (.ok q) ∧ q.tree.findFile [.rootDir, .normal "s", .normal "f"] = some ([], 0) :=
    ⟨_, rfl, by decide⟩
  obtain ⟨q, hl, hr⟩ := hq
  have hrange : InRange 0 twoLines := by simp [twoLines, InRange]
  obtain ⟨b, hb, h⟩ := bench_agrees hl hr hrange (by decide) twoLines [] (List.append_nil _).symm
  exact ⟨q, b, hl, hb, h⟩

end BenchMirror
