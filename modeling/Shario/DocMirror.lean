import Shario.BenchMirror
import Shario.PeerSession

/-! The client of `bench/doc-mirror.js`. It sends an add at once, under a tag, and learns the
identity later; a character that is deleted before that keeps its removal until then. -/
namespace DocMirror

open CrdtTypes RowLayout QueueRuns
open BenchMirror (document locate_spec)
open PeerSession (Edit)

/-- The identity of a cell or an anchor, or the tag under which it is still to be confirmed. -/
inductive Name where
  | known (id peer : ℕ)
  | pending (tag : ℕ)

structure Cell where
  value : Char
  name : Name

structure Line where
  anchor : Name
  cells : List Cell

structure Mirror where
  lines : List Line
  pendingAdds : Finset ℕ
  /-- The row of a removal that waits for its tag. -/
  pendingRemovals : HashMap ℕ ℕ
  nextTag : ℕ

def createDocMirror : Mirror := ⟨[⟨.known 0 0, []⟩], ∅, ∅, 0⟩

/-- The loop of `locate`; running out of lines is its error. -/
def locateFrom : List Line → (row acc offset : ℕ) → Option Position
  | [], _, _, _ => none
  | line :: lines, row, acc, offset =>
    if offset ≤ acc + line.cells.length then some (row, offset - acc)
    else locateFrom lines (row + 1) (acc + line.cells.length + 1) offset

def locate (lines : List Line) (offset : ℕ) : Option Position := locateFrom lines 0 0 offset

def emitAdd (filePath : PathBuf) (parent : Name) (lineHint : ℕ) (value : Char) (tag : ℕ) : IdeAdd :=
  match parent with
  | .known id peer => ⟨filePath, some id, some peer, none, value, tag, lineHint⟩
  | .pending parentTag => ⟨filePath, none, none, some parentTag, value, tag, lineHint⟩

def leftOf (line : Line) (col0 : ℕ) : Option Name :=
  if col0 = 0 then some line.anchor else line.cells[col0 - 1]?.map Cell.name

def insertMirrored (lines : List Line) (line : Line) (row col0 tag : ℕ) (value : Char) :
    Option (List Line) :=
  if value = '\n' then do
    let (cells, moved) ← splitOff line.cells col0
    insertAt (lines.set row { line with cells }) (row + 1) ⟨.pending tag, moved⟩
  else do
    let cells ← insertAt line.cells col0 ⟨value, .pending tag⟩
    some (lines.set row { line with cells })

def insertChar (filePath : PathBuf) (m : Mirror) (offset : ℕ) (value : Char) :
    Option (Mirror × List Edit) := do
  let (row, col0) ← locate m.lines offset
  let line ← m.lines[row]?
  let parent ← leftOf line col0
  let lines ← insertMirrored m.lines line row col0 m.nextTag value
  some ({ m with lines, pendingAdds := insert m.nextTag m.pendingAdds, nextTag := m.nextTag + 1 },
    [.add (emitAdd filePath parent row value m.nextTag)])

def removeIdentity (filePath : PathBuf) (m : Mirror) (name : Name) (row : ℕ) : Mirror × List Edit :=
  match name with
  | .pending tag => ({ m with pendingRemovals := m.pendingRemovals.insert tag row }, [])
  | .known id peer => (m, [.remove ⟨filePath, id, peer, row⟩])

def deleteChar (filePath : PathBuf) (m : Mirror) (offset : ℕ) : Option (Mirror × List Edit) := do
  let (row, col0) ← locate m.lines offset
  let line ← m.lines[row]?
  if col0 < line.cells.length then
    let cell ← line.cells[col0]?
    let cells ← removeAt line.cells col0
    let m := { m with lines := m.lines.set row { line with cells } }
    some (removeIdentity filePath m cell.name row)
  else
    let next ← m.lines[row + 1]?
    let lines ← removeAt m.lines (row + 1)
    let m := { m with lines := lines.set row { line with cells := line.cells ++ next.cells } }
    some (removeIdentity filePath m next.anchor (row + 1))

def Name.confirm (tag id peer : ℕ) : Name → Name
  | .pending t => if t = tag then .known id peer else .pending t
  | .known i p => .known i p

def Cell.confirm (tag id peer : ℕ) (c : Cell) : Cell := ⟨c.value, c.name.confirm tag id peer⟩

def Line.confirm (tag id peer : ℕ) (l : Line) : Line :=
  ⟨l.anchor.confirm tag id peer, l.cells.map (Cell.confirm tag id peer)⟩

def confirmAdd (filePath : PathBuf) (m : Mirror) (tag id peer : ℕ) : Mirror × List Edit :=
  if tag ∈ m.pendingAdds then
    let m := { m with
      lines := m.lines.map (Line.confirm tag id peer)
      pendingAdds := m.pendingAdds.erase tag }
    match m.pendingRemovals.lookup tag with
    | none => (m, [])
    | some row => ({ m with pendingRemovals := m.pendingRemovals.erase tag },
        [.remove ⟨filePath, id, peer, row⟩])
  else (m, [])

def Mirror.apply (filePath : PathBuf) (m : Mirror) : BenchMirror.Edit → Option (Mirror × List Edit)
  | .insert offset value => insertChar filePath m offset value
  | .delete offset => deleteChar filePath m offset

/-- The identity of a name, when `peer` is the only writer of the queue: the add under `tag`
is the one after `tag` others. -/
def Name.identity (peer : ℕ) : Name → Identity
  | .known id p => (id, p)
  | .pending tag => (tag + 1, peer)

def Cell.resolve (peer : ℕ) (c : Cell) : BenchMirror.Cell :=
  ⟨(c.name.identity peer).1, (c.name.identity peer).2, c.value⟩

def Line.resolve (peer : ℕ) (l : Line) : BenchMirror.Line :=
  ⟨(l.anchor.identity peer).1, (l.anchor.identity peer).2, l.cells.map (Cell.resolve peer)⟩

def resolved (peer : ℕ) (lines : List Line) : List BenchMirror.Line := lines.map (Line.resolve peer)

def names (lines : List Line) : List Name :=
  lines.flatMap fun l => l.anchor :: l.cells.map Cell.name

section Resolve

variable {peer : ℕ} {lines A B : List Line} {line next : Line} {u v : List Cell} {cell : Cell}
  {offset : ℕ} {value : Char} {path : PathBuf} {m : Mirror}

@[simp] theorem resolve_identity (c : Cell) : (c.resolve peer).identity = c.name.identity peer := rfl

@[simp] theorem resolve_anchor (l : Line) : (l.resolve peer).anchor = l.anchor.identity peer := rfl

@[simp] theorem resolve_cells (l : Line) :
    (l.resolve peer).cells = l.cells.map (Cell.resolve peer) := rfl

@[simp] theorem resolved_nil : resolved peer [] = [] := rfl

@[simp] theorem resolved_append (A B : List Line) :
    resolved peer (A ++ B) = resolved peer A ++ resolved peer B := by simp [resolved]

@[simp] theorem resolved_cons (l : Line) (B : List Line) :
    resolved peer (l :: B) = l.resolve peer :: resolved peer B := rfl

@[simp] theorem resolved_length : (resolved peer lines).length = lines.length := by simp [resolved]

@[simp] theorem names_append (A B : List Line) : names (A ++ B) = names A ++ names B := by
  simp [names]

@[simp] theorem names_cons (l : Line) (B : List Line) :
    names (l :: B) = (l.anchor :: l.cells.map Cell.name) ++ names B := rfl

theorem locateFrom_resolved (row acc : ℕ) :
    BenchMirror.locateFrom (resolved peer lines) row acc offset = locateFrom lines row acc offset := by
  induction lines generalizing row acc with
  | nil => rfl
  | cons line lines ih =>
    rw [resolved_cons, BenchMirror.locateFrom, locateFrom, resolve_cells, List.length_map, ih]

theorem leftOf_resolved (line : Line) (col0 : ℕ) :
    BenchMirror.leftOf (line.resolve peer) col0 = (leftOf line col0).map (Name.identity peer) := by
  rw [BenchMirror.leftOf, leftOf]
  by_cases h : col0 = 0
  · simp [h]
  · simp [h, Function.comp_def]

theorem located (h : offset < (document (resolved peer lines)).length) :
    ∃ A line B u v, lines = A ++ line :: B ∧ line.cells = u ++ v ∧
      locate lines offset = some (A.length, u.length) ∧
      BenchMirror.locate (resolved peer lines) offset = some (A.length, u.length) ∧
      (document (resolved peer A)).length + u.length = offset := by
  obtain ⟨A', line', B', u', v', hl, hc, ho, he⟩ := locate_spec h
  obtain ⟨A, rest, rfl, rfl, hrest⟩ := List.map_eq_append_iff.mp hl
  obtain ⟨line, B, rfl, rfl, rfl⟩ := List.map_eq_cons_iff.mp hrest
  obtain ⟨u, v, hcells, rfl, rfl⟩ := List.map_eq_append_iff.mp hc
  rw [List.length_map, List.length_map] at he
  rw [List.length_map] at ho
  refine ⟨A, line, B, u, v, rfl, hcells, ?_, he, ho⟩
  exact (locateFrom_resolved 0 0).symm.trans he

theorem insertMirrored_resolved (A B : List Line) (hcells : line.cells = u ++ v) (tag peer : ℕ)
    (value : Char) : ∃ lines,
      insertMirrored (A ++ line :: B) line A.length u.length tag value = some lines ∧
      BenchMirror.insertMirrored (resolved peer (A ++ line :: B)) (line.resolve peer) A.length
        u.length (tag + 1) peer value = some (resolved peer lines) ∧
      ∀ name ∈ names lines, name ∈ names (A ++ line :: B) ∨ name = .pending tag := by
  have hrow : A.length = (resolved peer A).length := resolved_length.symm
  have hcol : u.length = (u.map (Cell.resolve peer)).length := (List.length_map _).symm
  rw [insertMirrored, BenchMirror.insertMirrored]
  by_cases hv : value = '\n'
  · refine ⟨A ++ { line with cells := u } :: ⟨.pending tag, v⟩ :: B, ?_, ?_, fun name hn => ?_⟩
    · simp only [if_pos hv, hcells, splitOff_append, Option.bind_eq_bind, Option.bind_some,
        set_middle, insertAt_behind]
    · simp only [if_pos hv, resolve_cells, hcells, List.map_append, resolved_append, resolved_cons]
      rw [hcol, splitOff_append]
      simp only [Option.bind_eq_bind, Option.bind_some]
      rw [hrow, set_middle]
      exact insertAt_behind (resolved peer A) (resolved peer B) (Line.resolve peer ⟨line.anchor, u⟩)
        (Line.resolve peer ⟨.pending tag, v⟩)
    · simp only [names_append, names_cons, List.mem_append, List.mem_cons, hcells,
        List.map_append] at hn ⊢
      tauto
  · refine ⟨A ++ { line with cells := u ++ ⟨value, .pending tag⟩ :: v } :: B, ?_, ?_,
      fun name hn => ?_⟩
    · simp only [if_neg hv, hcells, insertAt_append, Option.bind_eq_bind, Option.bind_some,
        set_middle]
    · simp only [if_neg hv, resolve_cells, hcells, List.map_append, resolved_append, resolved_cons]
      rw [hcol, insertAt_append]
      simp only [Option.bind_eq_bind, Option.bind_some]
      rw [hrow, set_middle]
      simp [Line.resolve, Cell.resolve, Name.identity]
    · simp only [names_append, names_cons, List.mem_append, List.mem_cons, hcells,
        List.map_append, List.map_cons] at hn ⊢
      tauto

/-- A character enters the lines behind `parent`. -/
structure Inserted (peer : ℕ) (m : Mirror) (value : Char) (parent : Name) (lines : List Line) :
    Prop where
  split : ∃ l r, document (resolved peer m.lines) = l ++ parent.identity peer :: r ∧
    document (resolved peer lines) = l ++ parent.identity peer :: (m.nextTag + 1, peer) :: r
  parent : parent ∈ names m.lines
  names : ∀ name ∈ names lines, name ∈ DocMirror.names m.lines ∨ name = .pending m.nextTag
  cells : ∀ cell ∈ (resolved peer lines).flatMap BenchMirror.Line.cells,
    cell ∈ (resolved peer m.lines).flatMap BenchMirror.Line.cells ∨
      cell = ⟨m.nextTag + 1, peer, value⟩ ∧ value ≠ '\n'
  anchors : ∀ y ∈ (resolved peer lines).map BenchMirror.Line.anchor,
    y ∈ (resolved peer m.lines).map BenchMirror.Line.anchor ∨
      y = (m.nextTag + 1, peer) ∧ value = '\n'

structure Deleted (peer : ℕ) (m : Mirror) (name : Name) (lines : List Line) : Prop where
  split : ∃ y l r, document (resolved peer m.lines) = (y :: l) ++ name.identity peer :: r ∧
    document (resolved peer lines) = (y :: l) ++ r
  name : name ∈ names m.lines
  names : ∀ name ∈ names lines, name ∈ DocMirror.names m.lines
  cells : ∀ cell ∈ (resolved peer lines).flatMap BenchMirror.Line.cells,
    cell ∈ (resolved peer m.lines).flatMap BenchMirror.Line.cells
  anchors : ∀ y ∈ (resolved peer lines).map BenchMirror.Line.anchor,
    y ∈ (resolved peer m.lines).map BenchMirror.Line.anchor

theorem leftOf_cells (peer : ℕ) (hcells : line.cells = u ++ v) : ∃ parent l,
    leftOf line u.length = some parent ∧ (parent = line.anchor ∨ parent ∈ u.map Cell.name) ∧
      line.anchor.identity peer :: u.map (fun c => c.name.identity peer) =
        l ++ [parent.identity peer] := by
  rcases List.eq_nil_or_concat u with rfl | ⟨u, cell, rfl⟩
  · exact ⟨line.anchor, [], rfl, Or.inl rfl, rfl⟩
  · exact ⟨cell.name, line.anchor.identity peer :: u.map (fun c => c.name.identity peer),
      by simp [leftOf, hcells], Or.inr (by simp), by simp⟩

theorem insertChar_spec (path : PathBuf) (value : Char)
    (h : offset < (document (resolved peer m.lines)).length) : ∃ lines row parent,
      insertChar path m offset value = some
        ({ m with lines, pendingAdds := insert m.nextTag m.pendingAdds, nextTag := m.nextTag + 1 },
          [.add (emitAdd path parent row value m.nextTag)]) ∧
      Inserted peer m value parent lines ∧
      ∀ b b' : BenchMirror.Bench, b.lines = resolved peer m.lines →
        BenchMirror.insertChar path b offset value = some b' →
        ∃ op, b.queue.addIdeOperation op = some b'.queue ∧
          (BenchMirror.confirmed b.queue b'.queue = some (m.nextTag + 1, peer) →
            b'.lines = resolved peer lines) := by
  obtain ⟨A, line, B, u, v, hl, hcells, hloc, hloc', _⟩ := located h
  obtain ⟨parent, l, hleft, hmem, hsplit⟩ := leftOf_cells peer hcells
  obtain ⟨lines, hlines, hbench, hnames⟩ := insertMirrored_resolved A B hcells m.nextTag peer value
  have hcells' : (line.resolve peer).cells =
      u.map (Cell.resolve peer) ++ v.map (Cell.resolve peer) := by
    rw [resolve_cells, hcells, List.map_append]
  obtain ⟨lines', he, hdoc, hcell, hanchor⟩ := BenchMirror.insertMirrored_spec (resolved peer A)
    (resolved peer B) (line.resolve peer) hcells' (m.nextTag + 1) peer value
  rw [resolved_length, List.length_map, ← resolved_cons, ← resolved_append, hbench,
    Option.some.injEq] at he
  subst he
  have hline : m.lines[A.length]? = some line := by rw [hl, getElem?_middle]
  refine ⟨lines, A.length, parent, ?_, ⟨?_, ?_, ?_, ?_, ?_⟩, fun b b' hb he => ?_⟩
  · rw [← hl] at hlines
    simp only [insertChar, hloc, hline, hleft, hlines, Option.bind_eq_bind, Option.bind_some]
  · refine ⟨document (resolved peer A) ++ l,
      v.map (fun c => c.name.identity peer) ++ document (resolved peer B), ?_, ?_⟩
    · have hrow : (line.resolve peer).row = (l ++ [parent.identity peer]) ++
          v.map (fun c => c.name.identity peer) := by
        rw [← hsplit]
        simp [BenchMirror.Line.row, hcells, Function.comp_def]
      rw [hl, resolved_append, resolved_cons, BenchMirror.document_append, BenchMirror.document_cons,
        hrow]
      simp
    · rw [hdoc]
      have hfront : (line.resolve peer).anchor ::
          (u.map (Cell.resolve peer)).map BenchMirror.Cell.identity = l ++ [parent.identity peer] := by
        rw [← hsplit]
        simp [Function.comp_def]
      rw [hfront]
      simp [Function.comp_def]
  · rw [hl, names_append, names_cons, hcells]
    simp only [List.mem_append, List.mem_cons, List.map_append]
    tauto
  · rw [hl]
    exact hnames
  · rw [hl, resolved_append]
    exact hcell
  · rw [hl, resolved_append]
    exact hanchor
  · have hrow : A.length = (resolved peer A).length := resolved_length.symm
    have hbline : b.lines[A.length]? = some (line.resolve peer) := by
      rw [hb, hl, resolved_append, resolved_cons, hrow, getElem?_middle]
    simp only [BenchMirror.insertChar, hb ▸ hloc', hbline, leftOf_resolved, hleft, Option.map_some,
      Option.bind_eq_bind, Option.bind_some, Option.bind_eq_some_iff] at he
    obtain ⟨_, _, q, hq, ⟨id, p⟩, hconf, lines', hlines', he⟩ := he
    rw [Option.some.injEq] at he
    subst he
    refine ⟨_, hq, fun hconf' => ?_⟩
    rw [hconf, Option.some.injEq, Prod.mk.injEq] at hconf'
    rw [hconf'.1, hconf'.2, hb, hl, hbench, Option.some.injEq] at hlines'
    exact hlines'.symm

/-- Both mirrors delete alike at `offset`: `lines` without the character `name`, sent for `row`. -/
structure DeletedBy (path : PathBuf) (peer : ℕ) (m : Mirror) (offset : ℕ) (lines : List Line)
    (name : Name) (row : ℕ) : Prop where
  mirror : deleteChar path m offset = some (removeIdentity path { m with lines } name row)
  deleted : Deleted peer m name lines
  bench : ∀ b : BenchMirror.Bench, b.lines = resolved peer m.lines →
    BenchMirror.removeChar path b offset =
      (b.queue.removeIdeOperation ⟨path, (name.identity peer).1, (name.identity peer).2, row⟩).map
        fun queue => ⟨queue, resolved peer lines, b.nextTag⟩

section Delete

variable {y : Identity} {l : List Identity}
  (hloc : locate m.lines offset = some (A.length, u.length))
  (hloc' : BenchMirror.locate (resolved peer m.lines) offset = some (A.length, u.length))
  (hfront : document (resolved peer A) ++
    line.anchor.identity peer :: u.map (fun c => c.name.identity peer) = y :: l)

include hfront in
theorem document_split (hl : m.lines = A ++ line :: B) (hcells : line.cells = u ++ v) :
    document (resolved peer m.lines) =
      (y :: l) ++ (v.map (fun c => c.name.identity peer) ++ document (resolved peer B)) := by
  rw [← hfront]
  simp [hl, BenchMirror.Line.row, hcells, Function.comp_def]

include hloc hloc' hfront in
theorem delete_cell (hl : m.lines = A ++ line :: B) (hcells : line.cells = u ++ cell :: v) :
    DeletedBy path peer m offset (A ++ { line with cells := u ++ v } :: B) cell.name A.length := by
  have hline : m.lines[A.length]? = some line := by rw [hl, getElem?_middle]
  have hrow : A.length = (resolved peer A).length := resolved_length.symm
  have hcol : u.length < line.cells.length := by simp [hcells]
  have hget : line.cells[u.length]? = some cell := by rw [hcells, getElem?_middle]
  have hat : removeAt line.cells u.length = some (u ++ v) := by rw [hcells, removeAt_append]
  have hset : m.lines.set A.length { line with cells := u ++ v } =
      A ++ { line with cells := u ++ v } :: B := by rw [hl, set_middle]
  refine ⟨?_, ⟨?_, ?_, ?_, ?_, ?_⟩, fun b hb => ?_⟩
  · simp only [deleteChar, hloc, hline, if_pos hcol, hget, hat, hset, Option.bind_eq_bind,
      Option.bind_some]
  · refine ⟨y, l, v.map (fun c => c.name.identity peer) ++ document (resolved peer B),
      document_split hfront hl hcells, ?_⟩
    rw [← hfront]
    simp [BenchMirror.Line.row, Function.comp_def]
  · simp [hl, hcells]
  · intro name hn
    simp only [hl, names_append, names_cons, List.mem_append, List.mem_cons, hcells,
      List.map_append, List.map_cons] at hn ⊢
    tauto
  · intro c hc
    simp only [hl, resolved_append, resolved_cons, List.flatMap_append, List.flatMap_cons,
      resolve_cells, List.map_append, List.map_cons, List.mem_append, List.mem_cons, hcells] at hc ⊢
    tauto
  · intro y hy
    simpa [hl] using hy
  · have hbline : b.lines[A.length]? = some (line.resolve peer) := by
      rw [hb, hl, resolved_append, resolved_cons, hrow, getElem?_middle]
    have hcol' : u.length < (line.resolve peer).cells.length := by simpa using hcol
    have hget' : (line.resolve peer).cells[u.length]? = some (cell.resolve peer) := by
      rw [resolve_cells, List.getElem?_map, hget]
      rfl
    have hat' : removeAt (line.resolve peer).cells u.length =
        some ((u ++ v).map (Cell.resolve peer)) := by
      rw [resolve_cells, hcells, List.map_append, List.map_cons,
        ← List.length_map (Cell.resolve peer), removeAt_append, List.map_append]
    have hset' : b.lines.set A.length (Line.resolve peer { line with cells := u ++ v }) =
        resolved peer (A ++ { line with cells := u ++ v } :: B) := by
      rw [hb, hl, resolved_append, resolved_cons, hrow, set_middle, resolved_append, resolved_cons]
    rw [← hset']
    simp only [BenchMirror.removeChar, hb ▸ hloc', hbline, if_pos hcol', hget', hat',
      Option.bind_eq_bind, Option.bind_some]
    exact Option.map_eq_bind.symm

include hloc hloc' hfront in
theorem delete_break (hl : m.lines = A ++ line :: next :: B) (hcells : line.cells = u) :
    DeletedBy path peer m offset (A ++ { line with cells := line.cells ++ next.cells } :: B)
      next.anchor (A.length + 1) := by
  have hline : m.lines[A.length]? = some line := by rw [hl, getElem?_middle]
  have hrow : A.length = (resolved peer A).length := resolved_length.symm
  have hcol : ¬ u.length < line.cells.length := by simp [hcells]
  have hget : m.lines[A.length + 1]? = some next := by rw [hl, getElem?_behind, List.head?_cons]
  have hat : removeAt m.lines (A.length + 1) = some (A ++ line :: B) := by rw [hl, removeAt_behind]
  refine ⟨?_, ⟨?_, ?_, ?_, ?_, ?_⟩, fun b hb => ?_⟩
  · simp only [deleteChar, hloc, hline, if_neg hcol, hget, hat, set_middle, Option.bind_eq_bind,
      Option.bind_some]
  · refine ⟨y, l, next.cells.map (fun c => c.name.identity peer) ++ document (resolved peer B), ?_, ?_⟩
    · rw [document_split hfront hl (hcells.trans (List.append_nil u).symm)]
      simp [BenchMirror.Line.row, Function.comp_def]
    · rw [← hfront]
      simp [BenchMirror.Line.row, hcells, Function.comp_def]
  · simp [hl]
  · intro name hn
    simp only [hl, names_append, names_cons, List.mem_append, List.mem_cons, hcells,
      List.map_append] at hn ⊢
    tauto
  · intro c hc
    simp only [hl, resolved_append, resolved_cons, List.flatMap_append, List.flatMap_cons,
      resolve_cells, List.map_append, List.mem_append] at hc ⊢
    tauto
  · intro y hy
    simp only [hl, resolved_append, resolved_cons, List.map_append, List.map_cons,
      List.mem_append, List.mem_cons] at hy ⊢
    tauto
  · have hbline : b.lines[A.length]? = some (line.resolve peer) := by
      rw [hb, hl, resolved_append, resolved_cons, hrow, getElem?_middle]
    have hcol' : ¬ u.length < (line.resolve peer).cells.length := by simpa using hcol
    have hget' : b.lines[A.length + 1]? = some (next.resolve peer) := by
      rw [hb, resolved, List.getElem?_map, hget]
      rfl
    have hat' : removeAt b.lines (A.length + 1) =
        some (resolved peer A ++ line.resolve peer :: resolved peer B) := by
      rw [hb, hl, resolved_append, resolved_cons, resolved_cons, hrow, removeAt_behind]
    have hset : (resolved peer A ++ line.resolve peer :: resolved peer B).set A.length
        (Line.resolve peer { line with cells := line.cells ++ next.cells }) =
        resolved peer (A ++ { line with cells := line.cells ++ next.cells } :: B) := by
      rw [hrow, set_middle, resolved_append, resolved_cons]
    have hcells' : Line.resolve peer { line with cells := line.cells ++ next.cells } =
        { line.resolve peer with
          cells := (line.resolve peer).cells ++ (next.resolve peer).cells } := by
      simp [Line.resolve]
    rw [← hset, hcells']
    simp only [BenchMirror.removeChar, hb ▸ hloc', hbline, if_neg hcol', hget', hat',
      Option.bind_eq_bind, Option.bind_some]
    exact Option.map_eq_bind.symm

end Delete

theorem deleteChar_spec (path : PathBuf)
    (h : offset + 1 < (document (resolved peer m.lines)).length) : ∃ lines name row,
      deleteChar path m offset = some (removeIdentity path { m with lines } name row) ∧
      Deleted peer m name lines ∧
      ∀ b : BenchMirror.Bench, b.lines = resolved peer m.lines →
        BenchMirror.removeChar path b offset =
          (b.queue.removeIdeOperation ⟨path, (name.identity peer).1, (name.identity peer).2, row⟩).map
            fun queue => ⟨queue, resolved peer lines, b.nextTag⟩ := by
  have hin : offset < (document (resolved peer m.lines)).length := by omega
  obtain ⟨A, line, B, u, v, hl, hcells, hloc, hloc', hlen⟩ := located hin
  obtain ⟨y, l, hfront⟩ : ∃ y l, document (resolved peer A) ++
      line.anchor.identity peer :: u.map (fun c => c.name.identity peer) = y :: l := by
    cases document (resolved peer A) <;> simp
  cases v with
  | cons cell v =>
    obtain ⟨hmirror, hdeleted, hbench⟩ := delete_cell hloc hloc' hfront hl hcells
    exact ⟨_, _, _, hmirror, hdeleted, hbench⟩
  | nil =>
    cases B with
    | nil =>
      -- the offset is behind the last character
      have hcount := congrArg List.length (document_split hfront hl hcells)
      have hlast := congrArg List.length hfront
      simp only [List.length_append, List.length_cons, List.length_map, List.map_nil,
        List.length_nil, resolved, BenchMirror.document_nil] at hcount hlast
      simp only [resolved] at h hlen
      omega
    | cons next B =>
      obtain ⟨hmirror, hdeleted, hbench⟩ :=
        delete_break hloc hloc' hfront hl (hcells.trans (List.append_nil u))
      exact ⟨_, _, _, hmirror, hdeleted, hbench⟩

end Resolve

end DocMirror
