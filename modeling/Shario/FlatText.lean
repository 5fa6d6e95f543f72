import Shario.DocMirror

/-! The lines of both mirrors as one flat text. What an edit does to that text depends neither on
the identities nor on what a queue does with them. -/
namespace FlatText

open CrdtTypes RowLayout
open BenchMirror (Bench Edit Line document locate_spec leftOf_spec InRange)
open DocMirror (Mirror resolved)

/-- `current_text`. -/
def currentText (lines : List Line) : List Char :=
  List.intercalate ['\n'] (lines.map fun line => line.cells.map BenchMirror.Cell.value)

/-- `currentText` of `doc-mirror.js`. -/
def mirrorText (lines : List DocMirror.Line) : List Char :=
  List.intercalate ['\n'] (lines.map fun line => line.cells.map DocMirror.Cell.value)

def onText (text : List Char) : Edit → Option (List Char)
  | .insert offset value => insertAt text offset value
  | .delete offset => removeAt text offset

section Edits

variable {text text' : List Char} {edits rest : List Edit} {e : Edit}

/-- Where the text has room for an edit. -/
def Fits (n : ℕ) : Edit → Prop
  | .insert offset _ => offset ≤ n
  | .delete offset => offset < n

theorem fits_of_text (h : onText text e = some text') : Fits text.length e := by
  cases e with
  | insert offset value =>
    rw [onText, insertAt] at h
    split at h
    · assumption
    · exact absurd h (by simp)
  | delete offset =>
    rw [onText, removeAt] at h
    split at h
    · assumption
    · exact absurd h (by simp)

theorem in_range_append (h : edits.foldlM onText text = some text')
    (hrest : InRange text'.length rest) : InRange text.length (edits ++ rest) := by
  induction edits generalizing text with
  | nil =>
    obtain rfl := Option.some.inj h
    exact hrest
  | cons e edits ih =>
    rw [List.foldlM_cons, Option.bind_eq_bind, Option.bind_eq_some_iff] at h
    obtain ⟨text₁, he, h⟩ := h
    have hin := ih h
    cases e with
    | insert offset value =>
      rw [onText, insertAt] at he
      split at he
      · rename_i hle
        obtain rfl := Option.some.inj he
        rw [List.length_insertIdx_of_le_length hle] at hin
        exact ⟨hle, hin⟩
      · exact absurd he (by simp)
    | delete offset =>
      rw [onText, removeAt] at he
      split at he
      · rename_i hlt
        obtain rfl := Option.some.inj he
        rw [List.length_eraseIdx_of_lt hlt] at hin
        exact ⟨hlt, hin⟩
      · exact absurd he (by simp)

theorem in_range_text (h : InRange text.length edits) :
    ∃ text', edits.foldlM onText text = some text' := by
  induction edits generalizing text with
  | nil => exact ⟨text, rfl⟩
  | cons e edits ih =>
    cases e with
    | insert offset value =>
      have hlen := List.length_insertIdx_of_le_length h.1 value
      have hrest : InRange (text.insertIdx offset value).length edits := hlen.symm ▸ h.2
      obtain ⟨text', ht⟩ := ih hrest
      exact ⟨text', by rw [List.foldlM_cons, onText, insertAt, if_pos h.1]; exact ht⟩
    | delete offset =>
      have hlen := List.length_eraseIdx_of_lt h.1
      have hrest : InRange (text.eraseIdx offset).length edits := hlen.symm ▸ h.2
      obtain ⟨text', ht⟩ := ih hrest
      exact ⟨text', by rw [List.foldlM_cons, onText, removeAt, if_pos h.1]; exact ht⟩

end Edits

/-- Every row with a line break in front. -/
def withBreaks (rows : List (List Char)) : List Char := rows.flatMap ('\n' :: ·)

/-- What an edit does to the rows of a text. -/
inductive RowEdit : List (List Char) → Edit → List (List Char) → Prop where
  | char {A u v B offset value} : (withBreaks A).length + u.length = offset → value ≠ '\n' →
      RowEdit (A ++ (u ++ v) :: B) (.insert offset value) (A ++ (u ++ value :: v) :: B)
  | line {A u v B offset} : (withBreaks A).length + u.length = offset →
      RowEdit (A ++ (u ++ v) :: B) (.insert offset '\n') (A ++ u :: v :: B)
  | erase {A u c v B offset} : (withBreaks A).length + u.length = offset →
      RowEdit (A ++ (u ++ c :: v) :: B) (.delete offset) (A ++ (u ++ v) :: B)
  | join {A u v B offset} : (withBreaks A).length + u.length = offset →
      RowEdit (A ++ u :: v :: B) (.delete offset) (A ++ (u ++ v) :: B)

section Rows

variable {rows rows' A B : List (List Char)} {row u r r' : List Char} {c : Char} {offset : ℕ}
  {e : Edit}

@[simp] theorem withBreaks_append : withBreaks (A ++ B) = withBreaks A ++ withBreaks B := by
  simp [withBreaks]

@[simp] theorem withBreaks_cons : withBreaks (row :: B) = '\n' :: row ++ withBreaks B := rfl

theorem intercalate_cons : List.intercalate ['\n'] (row :: B) = row ++ withBreaks B := by
  induction B generalizing row with
  | nil => simp [withBreaks]
  | cons next B ih =>
    rw [List.intercalate_cons_cons, ih]
    simp

theorem withBreaks_eq (hne : rows ≠ []) : withBreaks rows = '\n' :: List.intercalate ['\n'] rows := by
  obtain ⟨row, rows, rfl⟩ := List.exists_cons_of_ne_nil hne
  rw [intercalate_cons]
  rfl

/-- The front of the rows ends at the offset of `l`. -/
theorem front_text (hne : rows ≠ []) (h : withBreaks rows = withBreaks A ++ '\n' :: u ++ r) :
    ∃ l, l.length = (withBreaks A).length + u.length ∧ List.intercalate ['\n'] rows = l ++ r ∧
      '\n' :: l = withBreaks A ++ '\n' :: u := by
  rw [withBreaks_eq hne] at h
  obtain ⟨c, l, hl⟩ := List.exists_cons_of_ne_nil (l := withBreaks A ++ '\n' :: u) (by simp)
  rw [hl, List.cons_append, List.cons.injEq] at h
  have hlen := congrArg List.length hl
  simp only [List.length_append, List.length_cons] at hlen
  exact ⟨l, by omega, h.2, by rw [hl, h.1]⟩

theorem same_front (hne : rows ≠ []) (hne' : rows' ≠ [])
    (h : withBreaks rows = withBreaks A ++ '\n' :: u ++ r)
    (h' : withBreaks rows' = withBreaks A ++ '\n' :: u ++ r') : ∃ l,
      l.length = (withBreaks A).length + u.length ∧ List.intercalate ['\n'] rows = l ++ r ∧
      List.intercalate ['\n'] rows' = l ++ r' := by
  obtain ⟨l, hlen, ht, hl⟩ := front_text hne h
  obtain ⟨l', _, ht', hl'⟩ := front_text hne' h'
  obtain rfl := (List.cons.inj (hl.trans hl'.symm)).2
  exact ⟨l, hlen, ht, ht'⟩

theorem onText_insert (hoff : (withBreaks A).length + u.length = offset) (hne : rows ≠ [])
    (hne' : rows' ≠ []) (h : withBreaks rows = withBreaks A ++ '\n' :: u ++ r)
    (h' : withBreaks rows' = withBreaks A ++ '\n' :: u ++ c :: r) :
    onText (List.intercalate ['\n'] rows) (.insert offset c) =
      some (List.intercalate ['\n'] rows') := by
  obtain ⟨l, hlen, ht, ht'⟩ := same_front hne hne' h h'
  rw [ht, ht', ← hoff, ← hlen, onText, insertAt_append]

theorem onText_delete (hoff : (withBreaks A).length + u.length = offset) (hne : rows ≠ [])
    (hne' : rows' ≠ []) (h : withBreaks rows = withBreaks A ++ '\n' :: u ++ c :: r)
    (h' : withBreaks rows' = withBreaks A ++ '\n' :: u ++ r) :
    onText (List.intercalate ['\n'] rows) (.delete offset) =
      some (List.intercalate ['\n'] rows') := by
  obtain ⟨l, hlen, ht, ht'⟩ := same_front hne hne' h h'
  rw [ht, ht', ← hoff, ← hlen, onText, removeAt_append]

theorem RowEdit.text (h : RowEdit rows e rows') : rows' ≠ [] ∧
    onText (List.intercalate ['\n'] rows) e = some (List.intercalate ['\n'] rows') := by
  cases h with
  | @char A u v B _ value hoff _ =>
    exact ⟨by simp, onText_insert (r := v ++ withBreaks B) hoff (by simp) (by simp) (by simp)
      (by simp)⟩
  | @line A u v B _ hoff =>
    exact ⟨by simp, onText_insert (r := v ++ withBreaks B) hoff (by simp) (by simp) (by simp)
      (by simp)⟩
  | @erase A u c v B _ hoff =>
    exact ⟨by simp, onText_delete (c := c) (r := v ++ withBreaks B) hoff (by simp) (by simp)
      (by simp) (by simp)⟩
  | @join A u v B _ hoff =>
    exact ⟨by simp, onText_delete (c := '\n') (r := v ++ withBreaks B) hoff (by simp) (by simp)
      (by simp) (by simp)⟩

end Rows

def rowsOf (lines : List Line) : List (List Char) :=
  lines.map fun line => line.cells.map BenchMirror.Cell.value

def mirrorRows (lines : List DocMirror.Line) : List (List Char) :=
  lines.map fun line => line.cells.map DocMirror.Cell.value

section Bench

variable {lines A B : List Line} {line : Line} {u v : List BenchMirror.Cell} {b b' : Bench}
  {path : PathBuf} {offset : ℕ} {value : Char} {e : Edit} {edits : List Edit}

@[simp] theorem rowsOf_append (A B : List Line) : rowsOf (A ++ B) = rowsOf A ++ rowsOf B := by
  simp [rowsOf]

@[simp] theorem rowsOf_cons (line : Line) (B : List Line) :
    rowsOf (line :: B) = line.cells.map BenchMirror.Cell.value :: rowsOf B := rfl

theorem rows_length : (withBreaks (rowsOf lines)).length = (document lines).length := by
  induction lines with
  | nil => rfl
  | cons line lines ih => simp [ih, BenchMirror.Line.row]

theorem text_length (hne : rowsOf lines ≠ []) :
    (document lines).length = (currentText lines).length + 1 := by
  rw [← rows_length, withBreaks_eq hne, List.length_cons]
  rfl

theorem front_length (hlen : (document A).length + u.length = offset) :
    (withBreaks (rowsOf A)).length + (u.map BenchMirror.Cell.value).length = offset := by
  rw [rows_length, List.length_map, hlen]

theorem insertMirrored_rows (hcells : line.cells = u ++ v)
    (hlen : (document A).length + u.length = offset) {id peer : ℕ}
    (h : BenchMirror.insertMirrored (A ++ line :: B) line A.length u.length id peer value =
      some lines) : RowEdit (rowsOf (A ++ line :: B)) (.insert offset value) (rowsOf lines) := by
  rw [rowsOf_append, rowsOf_cons, hcells, List.map_append]
  rw [BenchMirror.insertMirrored] at h
  by_cases hv : value = '\n'
  · simp only [if_pos hv, hcells, splitOff_append, Option.bind_eq_bind, Option.bind_some,
      set_middle, insertAt_behind, Option.some.injEq] at h
    subst h hv
    simpa using RowEdit.line (front_length hlen)
  · simp only [if_neg hv, hcells, insertAt_append, Option.bind_eq_bind, Option.bind_some,
      set_middle, Option.some.injEq] at h
    subst h
    simpa using RowEdit.char (front_length hlen) hv

theorem inserted_rows (hoff : offset < (document b.lines).length)
    (h : BenchMirror.insertChar path b offset value = some b') :
    RowEdit (rowsOf b.lines) (.insert offset value) (rowsOf b'.lines) := by
  obtain ⟨A, line, B, u, v, hl, hcells, hlen, hloc⟩ := locate_spec hoff
  obtain ⟨_, _, _, hleft⟩ := leftOf_spec hcells
  have hline : b.lines[A.length]? = some line := by rw [hl, getElem?_middle]
  simp only [BenchMirror.insertChar, hloc, hline, hleft, Option.bind_eq_bind, Option.bind_some,
    Option.bind_eq_some_iff] at h
  obtain ⟨_, _, q, _, ⟨id, peer⟩, _, lines, hlines, h⟩ := h
  obtain rfl := Option.some.inj h
  rw [hl] at hlines ⊢
  exact insertMirrored_rows hcells hlen hlines

theorem removed_rows (hoff : offset + 1 < (document b.lines).length)
    (h : BenchMirror.removeChar path b offset = some b') :
    RowEdit (rowsOf b.lines) (.delete offset) (rowsOf b'.lines) := by
  have hin : offset < (document b.lines).length := by omega
  obtain ⟨A, line, B, u, v, hl, hcells, hlen, hloc⟩ := locate_spec hin
  have hline : b.lines[A.length]? = some line := by rw [hl, getElem?_middle]
  simp only [BenchMirror.removeChar, hloc, hline, Option.bind_eq_bind, Option.bind_some] at h
  cases v with
  | cons cell v =>
    have hcol : u.length < line.cells.length := by simp [hcells]
    have hget : line.cells[u.length]? = some cell := by rw [hcells, getElem?_middle]
    have hat : removeAt line.cells u.length = some (u ++ v) := by rw [hcells, removeAt_append]
    simp only [if_pos hcol, hget, hat, Option.bind_some, Option.bind_eq_some_iff] at h
    obtain ⟨q, _, h⟩ := h
    obtain rfl := Option.some.inj h
    simp only [hl, set_middle]
    simpa [hcells] using RowEdit.erase (front_length hlen)
  | nil =>
    have hcol : ¬ u.length < line.cells.length := by simp [hcells]
    simp only [if_neg hcol, Option.bind_eq_some_iff] at h
    obtain ⟨next, hnext, lines, hlines, q, _, h⟩ := h
    obtain rfl := Option.some.inj h
    rw [hl, getElem?_behind, List.head?_eq_some_iff] at hnext
    obtain ⟨B, rfl⟩ := hnext
    rw [hl, removeAt_behind, Option.some.injEq] at hlines
    subst hlines
    simp only [hl, set_middle]
    simpa [hcells] using RowEdit.join (front_length hlen)

/-- The mirror of `bench.rs` shows the flat text. -/
theorem bench_text {text : List Char} (hne : rowsOf b.lines ≠ [])
    (hflat : edits.foldlM onText (currentText b.lines) = some text)
    (h : edits.foldlM (Edit.apply path) b = some b') : currentText b'.lines = text := by
  induction edits generalizing b with
  | nil =>
    obtain rfl := Option.some.inj h
    exact Option.some.inj hflat
  | cons e edits ih =>
    rw [List.foldlM_cons, Option.bind_eq_bind, Option.bind_eq_some_iff] at h hflat
    obtain ⟨b₁, hb₁, h⟩ := h
    obtain ⟨text₁, ht₁, hflat⟩ := hflat
    have hfits := fits_of_text ht₁
    have hlen := text_length hne
    have hedit : RowEdit (rowsOf b.lines) e (rowsOf b₁.lines) := by
      cases e with
      | insert offset value => exact inserted_rows (by rw [hlen]; exact Nat.lt_succ_of_le hfits) hb₁
      | delete offset => exact removed_rows (by rw [hlen]; exact Nat.succ_lt_succ hfits) hb₁
    obtain ⟨hne₁, ht⟩ := hedit.text
    obtain rfl := Option.some.inj (ht₁.symm.trans ht)
    exact ih hne₁ hflat h

end Bench

section Client

variable {lines A B : List DocMirror.Line} {line : DocMirror.Line} {m m' : Mirror} {path : PathBuf}
  {offset tag id peer : ℕ} {value : Char} {e : Edit} {sent : List PeerSession.Edit}

@[simp] theorem mirrorRows_append (A B : List DocMirror.Line) :
    mirrorRows (A ++ B) = mirrorRows A ++ mirrorRows B := by
  simp [mirrorRows]

@[simp] theorem mirrorRows_cons (line : DocMirror.Line) (B : List DocMirror.Line) :
    mirrorRows (line :: B) = line.cells.map DocMirror.Cell.value :: mirrorRows B := rfl

theorem rows_resolved (peer : ℕ) (lines : List DocMirror.Line) :
    rowsOf (resolved peer lines) = mirrorRows lines := by
  rw [rowsOf, mirrorRows, resolved, List.map_map]
  refine List.map_congr_left fun line _ => ?_
  simp [DocMirror.Line.resolve, DocMirror.Cell.resolve, Function.comp_def]

theorem mirrorText_resolved (peer : ℕ) (lines : List DocMirror.Line) :
    currentText (resolved peer lines) = mirrorText lines :=
  congrArg (List.intercalate ['\n']) (rows_resolved peer lines)

theorem confirmed_rows : mirrorRows (lines.map (DocMirror.Line.confirm tag id peer)) =
    mirrorRows lines := by
  rw [mirrorRows, mirrorRows, List.map_map]
  refine List.map_congr_left fun line _ => ?_
  simp [DocMirror.Line.confirm, DocMirror.Cell.confirm, Function.comp_def]

theorem confirmAdd_rows :
    mirrorRows (DocMirror.confirmAdd path m tag id peer).1.lines = mirrorRows m.lines := by
  simp only [DocMirror.confirmAdd]
  split
  · split
    · exact confirmed_rows
    · exact confirmed_rows
  · rfl

theorem client_inserted (hoff : offset < (document (resolved 0 m.lines)).length)
    (h : DocMirror.insertChar path m offset value = some (m', sent)) :
    RowEdit (mirrorRows m.lines) (.insert offset value) (mirrorRows m'.lines) := by
  obtain ⟨A, line, B, u, v, hl, hcells, hloc, _, hlen⟩ := DocMirror.located hoff
  obtain ⟨_, _, hleft, _⟩ := DocMirror.leftOf_cells 0 hcells
  obtain ⟨lines, hlines, hbench, _⟩ :=
    DocMirror.insertMirrored_resolved A B hcells m.nextTag 0 value
  have hline : m.lines[A.length]? = some line := by rw [hl, getElem?_middle]
  rw [← hl] at hlines
  simp only [DocMirror.insertChar, hloc, hline, hleft, hlines, Option.bind_eq_bind,
    Option.bind_some] at h
  obtain ⟨rfl, _⟩ := Prod.mk.inj (Option.some.inj h)
  have hcells' : (line.resolve 0).cells =
      u.map (DocMirror.Cell.resolve 0) ++ v.map (DocMirror.Cell.resolve 0) := by
    rw [DocMirror.resolve_cells, hcells, List.map_append]
  rw [DocMirror.resolved_append, DocMirror.resolved_cons, ← @DocMirror.resolved_length 0 A,
    ← List.length_map (DocMirror.Cell.resolve 0)] at hbench
  rw [← List.length_map (DocMirror.Cell.resolve 0)] at hlen
  have hrows := insertMirrored_rows hcells' hlen hbench
  rwa [← DocMirror.resolved_cons, ← DocMirror.resolved_append, ← hl, rows_resolved, rows_resolved]
    at hrows

theorem removeIdentity_lines {name : DocMirror.Name} {row : ℕ}
    (h : DocMirror.removeIdentity path m name row = (m', sent)) : m'.lines = m.lines := by
  obtain ⟨rfl, _⟩ := Prod.mk.inj h
  cases name <;> rfl

theorem client_removed (hoff : offset + 1 < (document (resolved 0 m.lines)).length)
    (h : DocMirror.deleteChar path m offset = some (m', sent)) :
    RowEdit (mirrorRows m.lines) (.delete offset) (mirrorRows m'.lines) := by
  have hin : offset < (document (resolved 0 m.lines)).length := by omega
  obtain ⟨A, line, B, u, v, hl, hcells, hloc, _, hlen⟩ := DocMirror.located hin
  have hline : m.lines[A.length]? = some line := by rw [hl, getElem?_middle]
  have hfront : (withBreaks (mirrorRows A)).length + (u.map DocMirror.Cell.value).length =
      offset := by
    rw [← rows_resolved 0, rows_length, List.length_map, hlen]
  simp only [DocMirror.deleteChar, hloc, hline, Option.bind_eq_bind, Option.bind_some] at h
  cases v with
  | cons cell v =>
    have hcol : u.length < line.cells.length := by simp [hcells]
    have hget : line.cells[u.length]? = some cell := by rw [hcells, getElem?_middle]
    have hat : removeAt line.cells u.length = some (u ++ v) := by rw [hcells, removeAt_append]
    simp only [if_pos hcol, hget, hat, Option.bind_some] at h
    simp only [removeIdentity_lines (Option.some.inj h), hl, set_middle]
    simpa [hcells] using RowEdit.erase hfront
  | nil =>
    have hcol : ¬ u.length < line.cells.length := by simp [hcells]
    simp only [if_neg hcol, Option.bind_eq_some_iff] at h
    obtain ⟨next, hnext, lines, hremoved, h⟩ := h
    rw [hl, getElem?_behind, List.head?_eq_some_iff] at hnext
    obtain ⟨B, rfl⟩ := hnext
    rw [hl, removeAt_behind, Option.some.injEq] at hremoved
    subst hremoved
    simp only [removeIdentity_lines (Option.some.inj h), hl, set_middle]
    simpa [hcells] using RowEdit.join hfront

/-- An edit does to the text of the client what it does to any text. -/
theorem client_text {text : List Char} (hne : mirrorRows m.lines ≠ [])
    (hflat : onText (mirrorText m.lines) e = some text) (h : m.apply path e = some (m', sent)) :
    mirrorRows m'.lines ≠ [] ∧ mirrorText m'.lines = text := by
  have hfits := fits_of_text hflat
  have hlen := text_length (rows_resolved 0 m.lines ▸ hne)
  rw [mirrorText_resolved] at hlen
  have hedit : RowEdit (mirrorRows m.lines) e (mirrorRows m'.lines) := by
    cases e with
    | insert offset value => exact client_inserted (by rw [hlen]; exact Nat.lt_succ_of_le hfits) h
    | delete offset => exact client_removed (by rw [hlen]; exact Nat.succ_lt_succ hfits) h
  obtain ⟨hne', ht⟩ := hedit.text
  exact ⟨hne', (Option.some.inj (hflat.symm.trans ht)).symm⟩

end Client

end FlatText
