import Shario.SendOrder
import Shario.SocketRuns

/-! A recorded trace as edits of one flat text: what both benchmarks show, what verdict they
reach, and what the queue of the socket benchmark reads back. -/
namespace TraceText

open CrdtTypes RowLayout FileTree CharacterTree DirectoryTree ShareQueue TextSplices SocketBench
  SocketRuns
open BenchMirror (Bench Edit Line document InRange isInsert Quiet)
open FlatText (currentText mirrorText onText rowsOf withBreaks in_range_append intercalate_cons
  bench_text)
open SendOrder (readRows readRows_eq)

/-- `(pos, delCount, insertedContent)` of a trace. -/
structure Patch where
  pos : ℕ
  del : ℕ
  inserted : List Char

structure Trace where
  txns : List (List Patch)
  endContent : List Char

/-- The edits of the loops of `bench.rs`, which go over the characters of the insert. -/
def Patch.edits (p : Patch) : List Edit :=
  List.replicate p.del (.delete p.pos) ++ p.inserted.mapIdx fun i value => .insert (p.pos + i) value

def Trace.edits (t : Trace) : List Edit := t.txns.flatten.flatMap Patch.edits

/-- The code units of a character in a string of `trace-runner.js`. -/
def codeUnits (c : Char) : List ℕ :=
  if c.toNat < 0x10000 then [c.toNat]
  else [0xD800 + (c.toNat - 0x10000) / 0x400, 0xDC00 + (c.toNat - 0x10000) % 0x400]

/-- A call of `insertChar` or `deleteChar`, whose value is one code unit. -/
inductive UnitEdit where
  | insert (offset unit : ℕ)
  | delete (offset : ℕ)
  deriving DecidableEq

/-- The calls of the loops of `trace-runner.js`, which go over the code units of the insert. -/
def Patch.unitEdits (p : Patch) : List UnitEdit :=
  List.replicate p.del (.delete p.pos) ++
    (p.inserted.flatMap codeUnits).mapIdx fun i unit => .insert (p.pos + i) unit

def Trace.unitEdits (t : Trace) : List UnitEdit := t.txns.flatten.flatMap Patch.unitEdits

def inUnits : Edit → UnitEdit
  | .insert offset value => .insert offset value.toNat
  | .delete offset => .delete offset

/-- No inserted character takes two code units. -/
def Trace.SingleUnits (t : Trace) : Prop :=
  ∀ p ∈ t.txns.flatten, ∀ c ∈ p.inserted, c.toNat < 0x10000

def correctnessCheck (text : List Char) (t : Trace) : String :=
  if text = t.endContent then "PASS" else "FAIL"

def splice (text : List Char) (p : Patch) : List Char :=
  text.take p.pos ++ p.inserted ++ text.drop (p.pos + p.del)

def Trace.result (t : Trace) : List Char := t.txns.flatten.foldl splice []

/-- Each patch is within the text that it finds. -/
def InBounds : List Char → List Patch → Prop
  | _, [] => True
  | text, p :: patches => p.pos + p.del ≤ text.length ∧ InBounds (splice text p) patches

section Flat

variable {text : List Char} {patches : List Patch} {p : Patch}

theorem deletes_text (n : ℕ) (l r : List Char) (h : n ≤ r.length) :
    (List.replicate n (Edit.delete l.length)).foldlM onText (l ++ r) = some (l ++ r.drop n) := by
  induction n generalizing r with
  | zero => simp
  | succ n ih =>
    obtain ⟨c, r, rfl⟩ := List.exists_cons_of_length_pos (l := r) (by omega)
    rw [List.length_cons] at h
    rw [List.replicate_succ, List.foldlM_cons, onText, removeAt_append, Option.bind_eq_bind,
      Option.bind_some, ih r (by omega), List.drop_succ_cons]

theorem inserts_text (inserted : List Char) (l r : List Char) :
    (inserted.mapIdx fun i value => Edit.insert (l.length + i) value).foldlM onText (l ++ r) =
      some (l ++ inserted ++ r) := by
  induction inserted generalizing l with
  | nil => simp
  | cons c inserted ih =>
    have hnext := ih (l ++ [c])
    rw [List.length_append, List.length_singleton] at hnext
    rw [List.mapIdx_cons, List.foldlM_cons, Nat.add_zero, onText, insertAt_append,
      Option.bind_eq_bind, Option.bind_some]
    simpa [Nat.add_assoc, Nat.add_comm 1] using hnext

/-- The loops of a patch are its splice. -/
theorem patch_text (h : p.pos + p.del ≤ text.length) :
    p.edits.foldlM onText text = some (splice text p) := by
  have hsplit : text = text.take p.pos ++ text.drop p.pos := (List.take_append_drop _ _).symm
  have hlen : (text.take p.pos).length = p.pos := by
    rw [List.length_take]
    omega
  have hdel := deletes_text p.del (text.take p.pos) (text.drop p.pos) (by rw [List.length_drop]; omega)
  have hins := inserts_text p.inserted (text.take p.pos) ((text.drop p.pos).drop p.del)
  rw [hlen, ← hsplit] at hdel
  rw [hlen] at hins
  rw [Patch.edits, List.foldlM_append, hdel, Option.bind_eq_bind, Option.bind_some, hins,
    List.drop_drop, splice]

theorem patches_text (h : InBounds text patches) :
    (patches.flatMap Patch.edits).foldlM onText text = some (patches.foldl splice text) := by
  induction patches generalizing text with
  | nil => rfl
  | cons p patches ih =>
    rw [List.flatMap_cons, List.foldlM_append, patch_text h.1, Option.bind_eq_bind, Option.bind_some,
      ih h.2, List.foldl_cons]

end Flat

section Lines

variable {b : Bench} {path : PathBuf}

theorem file_text {ref : FileRef} {peer : ℕ} {q : SharQueue} {f : SharFile} {done : List Edit}
    (h : Serving path ref peer (written done) q f) (hm : BenchMirror.Matched done f b.lines)
    (hanchors : ∀ y ∈ b.lines.map Line.anchor,
      y = root ∨ ∃ tag, y = (tag + 1, peer) ∧ (written done)[tag]? = some '\n') :
    (text f).map (valueIn f) = rootRelation.value :: currentText b.lines := by
  have hcell : ∀ line ∈ b.lines, line.cells.map (fun cell => valueIn f cell.identity) =
      line.cells.map BenchMirror.Cell.value := by
    intro line hline
    refine List.map_congr_left fun cell hc => ?_
    rw [valueIn, hm.values cell (List.mem_flatMap.mpr ⟨line, hline, hc⟩), Option.getD_some]
  have hhead := hm.shape.headed
  have hnodup := hm.shape.nodup
  rw [← text, hm.text] at hnodup
  obtain ⟨u, B, hrows⟩ := hhead
  have hdoc := hm.text
  rw [text, hrows] at hdoc
  rw [hm.text]
  cases hb : b.lines with
  | nil => exact absurd hdoc (by simp [hb])
  | cons first lines =>
    rw [hb] at hdoc hnodup hanchors hcell
    rw [BenchMirror.document_cons, BenchMirror.Line.row] at hdoc hnodup ⊢
    simp only [List.flatten_cons, List.cons_append, List.cons.injEq] at hdoc
    rw [List.cons_append, List.nodup_cons] at hnodup
    have hroot : valueIn f root = rootRelation.value := by
      rw [valueIn, hm.shape.rooted.root_entry]
      rfl
    have hline : ∀ line ∈ lines, line.row.map (valueIn f) =
        '\n' :: line.cells.map BenchMirror.Cell.value := by
      intro line hl
      have hin : line.anchor ∈ document (first :: lines) := List.mem_flatten.mpr
        ⟨line.row, List.mem_map.mpr ⟨line, List.mem_cons_of_mem _ hl, rfl⟩, List.mem_cons_self⟩
      obtain ⟨tag, hx, hv⟩ := (hanchors line.anchor (List.mem_map.mpr
        ⟨line, List.mem_cons_of_mem _ hl, rfl⟩)).resolve_left fun he => hnodup.1 <| by
          rw [← hdoc.1, ← he]
          exact List.mem_append_right _ (List.mem_flatten.mpr
            ⟨line.row, List.mem_map.mpr ⟨line, hl, rfl⟩, List.mem_cons_self⟩)
      have hval := typed_value h (hx ▸ hm.text ▸ hb ▸ hin) hv
      rw [BenchMirror.Line.row, List.map_cons, List.map_map, hx, valueIn, hval, Option.getD_some]
      exact congrArg _ (hcell line (List.mem_cons_of_mem _ hl))
    have hrest : (document lines).map (valueIn f) = withBreaks (rowsOf lines) := by
      rw [document, List.map_flatten, List.map_map, withBreaks, rowsOf, List.flatMap_map,
        List.flatMap_def]
      exact congrArg _ (List.map_congr_left hline)
    have htext : currentText (first :: lines) =
        first.cells.map BenchMirror.Cell.value ++ withBreaks (rowsOf lines) := intercalate_cons
    rw [htext, List.map_append, List.map_cons, ← hdoc.1, hroot, List.map_map, hrest]
    exact congrArg (fun l => rootRelation.value :: (l ++ withBreaks (rowsOf lines)))
      (hcell first List.mem_cons_self)

end Lines

section Units

variable {t : Trace} {p : Patch}

theorem single_units {inserted : List Char} (h : ∀ c ∈ inserted, c.toNat < 0x10000) :
    inserted.flatMap codeUnits = inserted.map Char.toNat := by
  induction inserted with
  | nil => rfl
  | cons c inserted ih =>
    rw [List.flatMap_cons, codeUnits, if_pos (h c List.mem_cons_self),
      ih fun c hc => h c (List.mem_cons_of_mem _ hc)]
    rfl

theorem patch_units (h : ∀ c ∈ p.inserted, c.toNat < 0x10000) :
    p.unitEdits = p.edits.map inUnits := by
  rw [Patch.unitEdits, Patch.edits, single_units h, List.map_append, List.map_replicate,
    List.mapIdx_eq_zipIdx_map, List.mapIdx_eq_zipIdx_map, List.zipIdx_map, List.map_map, List.map_map]
  rfl

/-- Without surrogate pairs both runners make the same edits. -/
theorem trace_units (h : t.SingleUnits) : t.unitEdits = t.edits.map inUnits := by
  rw [Trace.unitEdits, Trace.edits, List.map_flatMap]
  exact List.flatMap_congr fun p hp => patch_units (h p hp)

/-- A surrogate pair is two calls here and one in `bench.rs`. -/
example : (Patch.unitEdits ⟨0, 0, [Char.ofNat 0x1F600]⟩).length = 2 := by decide

theorem inUnits_injective : Function.Injective inUnits := by
  rintro (⟨offset, value⟩ | offset) (⟨offset', value'⟩ | offset') h
  · simp only [inUnits, UnitEdit.insert.injEq, Char.toNat_inj] at h
    rw [h.1, h.2]
  · exact absurd h (by simp [inUnits])
  · exact absurd h (by simp [inUnits])
  · simp only [inUnits, UnitEdit.delete.injEq] at h
    rw [h]

end Units

section Benchmarks

variable {dirPath path : PathBuf} {name : String} {peer : ℕ} {q : SharQueue} {ref : FileRef}
  {t : Trace} {events : List Event} {s : Socket}

/-- The in-process benchmark plays every trace that stays within its own text to the end, shows
the text that the patches make, and passes if and only if that is the recorded one. -/
theorem bench_plays (hl : SharQueue.new dirPath (.ok [.file name (.ok [])]) peer = some (.ok q))
    (hr : q.tree.findFile path = some ref) (ht : InBounds [] t.txns.flatten)
    (hroom : t.edits.countP isInsert < 2 ^ 32) :
    ∃ b, t.edits.foldlM (Edit.apply path) (BenchMirror.start q) = some b ∧
      currentText b.lines = t.result ∧ Quiet b.queue ∧
      (correctnessCheck (currentText b.lines) t = "PASS" ↔ t.result = t.endContent) := by
  have hflat : t.edits.foldlM onText [] = some t.result := patches_text ht
  have hrange : InRange 0 t.edits := by
    simpa using @in_range_append _ _ _ [] hflat trivial
  obtain ⟨b, hb, h⟩ := BenchMirror.mirror_run (n := 0) (BenchMirror.start_mirroring hl hr) rfl hrange
    (by rwa [List.nil_append])
  have htext := bench_text (b := BenchMirror.start q) (List.cons_ne_nil _ _) hflat hb
  refine ⟨b, hb, htext, h.quiet, ?_⟩
  rw [htext, correctnessCheck]
  by_cases he : t.result = t.endContent <;> simp [he]

/-- `ab`, a line break and `c` are typed, and `b` with the line break is replaced by `xy`. -/
def typed : Trace := ⟨[[⟨0, 0, ['a', 'b', '\n', 'c']⟩], [⟨1, 2, ['x', 'y']⟩]], ['a', 'x', 'y', 'c']⟩

theorem bench_plays_typed : ∃ b,
    typed.edits.foldlM (Edit.apply onF) (BenchMirror.start loadedF) = some b ∧
    currentText b.lines = ['a', 'x', 'y', 'c'] ∧
    correctnessCheck (currentText b.lines) typed = "PASS" := by
  obtain ⟨b, hb, htext, _, hpass⟩ := bench_plays (t := typed) loadedF_new loadedF_finds
    ⟨le_rfl, by decide, trivial⟩ (by decide)
  exact ⟨b, hb, htext, hpass.mpr rfl⟩

/-- Whatever is under way, and in whatever order the server handles the messages, the client of
the socket benchmark shows the text that the patches make, so both benchmarks give a trace without
surrogate pairs the same verdict. When nothing is under way and no message has overtaken another,
the queue reads the same text back. -/
theorem socket_plays (hl : SharQueue.new dirPath (.ok [.file name (.ok [])]) peer = some (.ok q))
    (hr : q.tree.findFile path = some ref) (ht : InBounds [] t.txns.flatten)
    (hunits : t.SingleUnits) (hroom : t.edits.countP isInsert < 2 ^ 32)
    (hcalls : (played events).map inUnits = t.unitEdits)
    (hrun : events.foldlM (Socket.step path) (connect q) = some s) :
    mirrorText s.mirror.lines = t.result ∧
      (correctnessCheck (mirrorText s.mirror.lines) t = "PASS" ↔ t.result = t.endContent) ∧
      (InOrder events → s.outbox = [] → s.inbox = [] → ∃ f, s.queue.tree.getFile ref = some f ∧
        readRows f = some (rootRelation.value :: t.result)) := by
  have hplayed : played events = t.edits :=
    inUnits_injective.list_map (hcalls.trans (trace_units hunits))
  have hflat : t.edits.foldlM onText [] = some t.result := patches_text ht
  have hrange : InRange 0 (played events ++ []) := by
    rw [hplayed]
    exact @in_range_append [] _ _ _ hflat trivial
  have hmirror : mirrorText s.mirror.lines = t.result := client_start (hplayed ▸ hflat) hrun
  refine ⟨hmirror, ?_, fun horder hout hin => ?_⟩
  · rw [hmirror, correctnessCheck]
    by_cases he : t.result = t.endContent <;> simp [he]
  · obtain ⟨_, b, _, hb, h, _⟩ := linked_run (n := 0) (linked_start hl hr) rfl hrange
      (by rwa [List.nil_append, hplayed]) horder hrun
    rw [List.nil_append] at h
    have htext := bench_text (b := BenchMirror.start q) (List.cons_ne_nil _ _) (hplayed ▸ hflat) hb
    obtain ⟨_, _, _, f, hserving, hm⟩ := linked_rest h hout hin
    refine ⟨f, hserving.file, ?_⟩
    rw [readRows_eq hserving.shape.toSound, file_text hserving hm h.anchors, htext]

/-- The first character is confirmed while the patches are still played. -/
def playing : List Event :=
  [.edit (.insert 0 'a'), .edit (.insert 1 'b'), .serve 0, .edit (.insert 2 '\n'), .hear,
    .edit (.insert 3 'c'), .edit (.delete 1), .edit (.delete 1), .serve 0, .hear, .serve 0,
    .edit (.insert 1 'x'), .edit (.insert 2 'y'), .serve 0, .serve 0, .serve 0, .serve 0, .hear,
    .hear, .hear, .hear, .serve 0]

theorem socket_plays_typed : ∃ s f,
    playing.foldlM (Socket.step onF) (connect loadedF) = some s ∧
    mirrorText s.mirror.lines = ['a', 'x', 'y', 'c'] ∧
    correctnessCheck (mirrorText s.mirror.lines) typed = "PASS" ∧
    s.queue.tree.getFile ([], 0) = some f ∧
    readRows f = some [rootRelation.value, 'a', 'x', 'y', 'c'] := by
  obtain ⟨s, hrun, hout, hin⟩ := comes_to_rest playing (by decide +kernel)
  obtain ⟨htext, hpass, hfile⟩ := socket_plays (t := typed) loadedF_new loadedF_finds
    ⟨le_rfl, by decide, trivial⟩ (by simp [Trace.SingleUnits, typed]) (by decide) (by decide) hrun
  obtain ⟨f, hf, hread⟩ := hfile (by simp [InOrder, playing]) hout hin
  exact ⟨s, f, hrun, htext, hpass.mpr rfl, hf, hread⟩

end Benchmarks

end TraceText
