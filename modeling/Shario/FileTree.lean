import Shario.CrdtTypes
import Shario.RowLayout

/-! `SharFile` of `tree.rs`: one file's characters and their projection into rows.
An index out of range, an underflow, a failed `expect` or an endless loop is `none`. -/
namespace FileTree

open CrdtTypes RowLayout

def isLineBreak (c : Char) : Bool :=
  c == '\n' || c == '\r' || c == '\u000B' || c == '\u000C' || c == '\u0085' ||
    c == '\u2028' || c == '\u2029'

/-- The root sentinel `(0, 0)`. -/
def root : Identity := (0, 0)

abbrev Projection := List (List Identity)
abbrev Characters := HashMap Identity CrdtRelation

structure SharFile where
  filePath : PathBuf
  characters : Characters
  projection : Projection

/-- `PartialEq for SharFile` leaves the path out. -/
def SharFile.Same (f g : SharFile) : Prop :=
  f.characters = g.characters ∧ f.projection = g.projection

def addLineToProjection (p : Projection) (coordinates : Position) (id : ℕ)
    (peer : ℕ) (parentReal : Bool) : Option Projection := do
  let offset := if parentReal then 1 else 0
  let line ← p[coordinates.1]?
  if line.isEmpty then
    insertAt p (coordinates.1 + offset) [(id, peer)]
  else
    let (line, newLine) ← splitOff line (coordinates.2 + offset)
    insertAt (p.set coordinates.1 line) (coordinates.1 + offset) ((id, peer) :: newLine)

def predecessorIdentity (p : Projection) (position : Position) : Option Identity :=
  let (row, col) := position
  if col > 0 then p[row]?.bind (·[col - 1]?)
  else if row > 0 then p[row - 1]?.bind List.getLast?
  else none

/-- `check_up` of `find_crdt`, with the new value of `up_offset`. -/
def checkUp (p : Projection) (lineNum : ℕ) (x : Identity) (up : ℕ) :
    Option (Except Error Position × ℕ) :=
  if lineNum < up then
    some (.error (.outOfBounds "up exhausted"), up)
  else do
    let line ← p[lineNum - up]?
    match line.idxOf? x with
    | some index => some (.ok (lineNum - up, index), up)
    | none => some (.error (.generic "not found on line"), up + 1)

/-- `check_down` of `find_crdt`, with the new value of `down_offset`. -/
def checkDown (p : Projection) (lineNum : ℕ) (x : Identity) (down : ℕ) :
    Option (Except Error Position × ℕ) :=
  if lineNum + down ≥ p.length then
    some (.error (.outOfBounds "down exhausted"), down)
  else do
    let line ← p[lineNum + down]?
    match line.idxOf? x with
    | some index => some (.ok (lineNum + down, index), down)
    | none => some (.error (.generic "not found on line"), down + 1)

/-- The `while` loop of `find_crdt`. The fuel stands for the iterations still allowed;
`ring_search_total` shows that `find_crdt` hands over enough. -/
def ringSearch (p : Projection) (lineNum : ℕ) (x : Identity) :
    (fuel up down : ℕ) → (upExhausted downExhausted : Bool) → Option (Except Error Position)
  | 0, _, _, _, _ => none
  | fuel + 1, up, down, upExhausted, downExhausted =>
    if upExhausted && downExhausted then
      some (.error (.outOfBounds "parent cannot be found"))
    else do
      let (above, up) ← checkUp p lineNum x up
      match above with
      | .ok pos => some (.ok pos)
      | .error e => do
        let upExhausted := upExhausted || e == .outOfBounds "up exhausted"
        let (below, down) ← checkDown p lineNum x down
        match below with
        | .ok pos => some (.ok pos)
        | .error e =>
          let downExhausted := downExhausted || e == .outOfBounds "down exhausted"
          ringSearch p lineNum x fuel up down upExhausted downExhausted

def findCrdt (p : Projection) (lineNum : ℕ) (x : Identity) : Option (Except Error Position) :=
  if x = root then
    some (.ok (0, 0))
  else do
    let lineNum := if lineNum < p.length then lineNum else 0
    let line ← p[lineNum]?
    match line.idxOf? x with
    | some index => some (.ok (lineNum, index))
    | none => ringSearch p lineNum x (p.length + 2) 1 1 false false

/-- The loop `for j in j..range` that `add_crdt` and `find_tombstone` share: the index
it stops at, or `none` inside when it runs through. -/
def tieBreak (m : Characters) (line : List Identity) (parent : Identity) (id : ℕ)
    (peer : ℕ) (offset : ℕ) : (count j : ℕ) → Option (Option ℕ)
  | 0, _ => some none
  | count + 1, j =>
    match (line)[j + offset]? with
    | none => some (some (j + offset))
    | some next => do
      let info ← m.lookup next
      if info.parent ≠ parent then some (some (j + offset))
      else if next.1 < id then some (some (j + offset))
      else if next.1 = id then
        if next.2 < peer then tieBreak m line parent id peer offset count (j + 1)
        else some (some (j + offset))
      else tieBreak m line parent id peer offset count (j + 1)

/-- The end of `find_tombstone`, from the place of the tombstone's own parent. -/
def tombstoneSlot (f : SharFile) (x parent : Identity) (coordinates : Position)
    (offset range : ℕ) : Option (Except Error Position) := do
  let line ← f.projection[coordinates.1]?
  match ← tieBreak f.characters line parent x.1 x.2 offset (range - coordinates.2)
      coordinates.2 with
  | some k => some (.ok (coordinates.1, k))
  | none => some (.ok (0, 0))

/-- The recursion of the source has no bound. Its fuel here is the number of characters,
which no chain of distinct tombstones exceeds. -/
def findTombstone (f : SharFile) (lineNum : ℕ) :
    (fuel : ℕ) → (x : Identity) → Option (Except Error Position)
  | 0, _ => none
  | fuel + 1, x =>
    match f.characters.lookup x with
    | none => some (.error (.generic "tombstone not found"))
    | some relation =>
      match f.characters.lookup relation.parent with
      | none => some (.error (.generic "tombstone not found"))
      | some parent =>
        if parent.deleted then do
          match ← findTombstone f lineNum fuel relation.parent with
          | .error e => some (.error e)
          | .ok coordinates => do
            let line ← f.projection[coordinates.1]?
            tombstoneSlot f x relation.parent coordinates 0 (line.length + 1)
        else if relation.parent = root then do
          let line ← f.projection[0]?
          tombstoneSlot f x relation.parent (0, 0) 0 (line.length + 1)
        else do
          match ← findCrdt f.projection lineNum relation.parent with
          | .error e => some (.error e)
          | .ok coordinates => do
            let line ← f.projection[coordinates.1]?
            tombstoneSlot f x relation.parent coordinates 1 line.length

abbrev Outcome := Except Error (Option Position)

/-- The second half of `add_crdt`: the parent's place is known. -/
def insertCrdt (f : SharFile) (crdt : CRDT) (coordinates : Position) (parentExists : Bool) :
    Option (Outcome × SharFile) := do
  let f := { f with characters := f.characters.insert crdt.identity crdt.relation }
  if isLineBreak crdt.relation.value then
    let p ← addLineToProjection f.projection coordinates crdt.id crdt.peer parentExists
    some (.ok (some (coordinates.1 + 1, 0)), { f with projection := p })
  else
    let line ← f.projection[coordinates.1]?
    let offset := if parentExists then 1 else 0
    let range := if parentExists then line.length else line.length + 1
    match ← tieBreak f.characters line crdt.relation.parent crdt.id crdt.peer offset
        (range - coordinates.2) coordinates.2 with
    | none => some (.ok none, f)
    | some k =>
      match (line)[k]? with
      | some _ =>
        let line ← insertAt line k crdt.identity
        some (.ok (some (coordinates.1, k)),
          { f with projection := f.projection.set coordinates.1 line })
      | none =>
        some (.ok (some (coordinates.1, line.length)),
          { f with projection := f.projection.set coordinates.1 (line ++ [crdt.identity]) })

def SharFile.addCrdt (f : SharFile) (lineNum : ℕ) (crdt : CRDT) : Option (Outcome × SharFile) :=
  match f.characters.lookup crdt.relation.parent with
  | none => some (.error (.generic "Parent does not exist"), f)
  | some par =>
    let parentExists := !par.deleted
    if (f.characters.lookup crdt.identity).isSome then
      some (.ok none, f)
    else do
      let parent ←
        if parentExists then findCrdt f.projection lineNum crdt.relation.parent
        else findTombstone f lineNum f.characters.keys.card crdt.relation.parent
      match parent with
      | .ok coordinates => insertCrdt f crdt coordinates parentExists
      | .error _ => some (.error (.outOfBounds "parent could not be found"), f)

/-- `remove_crdt` marks the character before it looks for its place: the file of a
late error carries the mark. -/
def SharFile.removeCrdt (f : SharFile) (lineNum : ℕ) (x : Identity) :
    Option (Outcome × SharFile) :=
  match f.characters.lookup x with
  | none => some (.error (.generic "crdt cannot be found"), f)
  | some val =>
    if val.deleted then some (.ok none, f)
    else do
      let f := { f with characters := f.characters.insert x { val with deleted := true } }
      if isLineBreak val.value then
        match ← findCrdt f.projection lineNum x with
        | .error _ => some (.error (.generic "anchor not found"), f)
        | .ok (actualRow, _) =>
          match f.projection[actualRow]? with
          | none => some (.error (.generic "character does not exist to be deleted"), f)
          | some oldLine =>
            let oldLine ← removeAt oldLine 0
            -- `actual_row - 1` on a `usize`
            let above ← if actualRow = 0 then none else some (actualRow - 1)
            let line ← f.projection[above]?
            let p ← removeAt (f.projection.set above (line ++ oldLine)) actualRow
            some (.ok (some (actualRow, 0)), { f with projection := p })
      else
        match ← findCrdt f.projection lineNum x with
        | .error _ => some (.error (.generic "crdt not found"), f)
        | .ok pos =>
          let line ← f.projection[pos.1]?
          let line ← removeAt line pos.2
          some (.ok (some pos), { f with projection := f.projection.set pos.1 line })

/-- The loop of `add_file`. The outcome of each `add_crdt` is thrown away. -/
def addChars (f : SharFile) (line : ℕ) (prevId counter : ℕ) :
    List Char → Option (SharFile × ℕ)
  | [] => some (f, counter)
  | c :: contents => do
    let id ← tick counter
    let (_, f) ← f.addCrdt line ⟨id, 0, .new c prevId 0⟩
    addChars f (if isLineBreak c then line + 1 else line) id id contents

def emptyFile (filePath : PathBuf) : SharFile :=
  ⟨filePath, Finmap.insert root (.new (Char.ofNat 0) 0 0) ∅, [[root]]⟩

/-- `read` is what `read_to_string` gives. -/
def SharFile.new (filePath : PathBuf) (read : Except String (List Char)) (counter : ℕ) :
    Option (Except Error (SharFile × ℕ)) :=
  match read with
  | .ok contents => do
    let loaded ← addChars (emptyFile filePath) 0 0 counter contents
    some (.ok loaded)
  | .error e =>
    some (.error (.readFail s!"Something went wrong while trying to read file contents: \n {e} \n"))

def SharFile.fullState (f : SharFile) : Characters := f.characters.erase root

def SharFile.identitiesWithValues (f : SharFile) : Option (List (List (Identity × Char))) :=
  f.projection.mapM fun line => line.mapM fun x => do
    let relation ← f.characters.lookup x
    some (x, relation.value)

end FileTree
