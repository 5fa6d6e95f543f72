import Mathlib.Data.Finmap

/-! The data of `types.rs`, `error.rs` and `prelude.rs`. Ids, peers, rows and columns
are natural numbers; the one place where a `u32` can overflow is the counter, see
`tick`. A panic is the `none` of `Option`, a Rust `Result` is an `Except`. -/
namespace CrdtTypes

abbrev HashMap (κ ν : Type) := Finmap (fun _ : κ => ν)

/-- A path is its normalised component list, as `Path::iter` yields it: `.` is left only
at the start of a relative path. -/
inductive Component where
  | rootDir
  | curDir
  | parentDir
  | normal (name : String)
  deriving DecidableEq, Repr

abbrev PathBuf := List Component

def isAbsolute : PathBuf → Bool
  | .rootDir :: _ => true
  | _ => false

/-- `Path::join`: an absolute argument replaces the base. -/
def joinPath (base path : PathBuf) : PathBuf :=
  if isAbsolute path || base.isEmpty then path else base ++ path.filter (· ≠ .curDir)

def stripPrefix (path base : PathBuf) : Option PathBuf :=
  if base.isPrefixOf path then some (path.drop base.length) else none

def fileName (path : PathBuf) : Option Component :=
  match path.getLast? with
  | some (.normal name) => some (.normal name)
  | _ => none

/-- `Path::ends_with` for an argument of one component. -/
def endsWith (path : PathBuf) (next : Component) : Bool :=
  path.getLast? == some next

abbrev Identity := ℕ × ℕ
abbrev Position := ℕ × ℕ

instance : LawfulBEq Identity := inferInstance

/-- `*counter += 1` on a `u32`: overflow is a panic. -/
def tick (counter : ℕ) : Option ℕ :=
  if counter + 1 < 2 ^ 32 then some (counter + 1) else none

structure CrdtRelation where
  value : Char
  parentId : ℕ
  parentPeer : ℕ
  deleted : Bool
  deriving DecidableEq, Repr

def CrdtRelation.new (value : Char) (parentId : ℕ) (parentPeer : ℕ) : CrdtRelation :=
  ⟨value, parentId, parentPeer, false⟩

def CrdtRelation.parent (r : CrdtRelation) : Identity := (r.parentId, r.parentPeer)

structure CRDT where
  id : ℕ
  peer : ℕ
  relation : CrdtRelation
  deriving DecidableEq, Repr

def CRDT.identity (c : CRDT) : Identity := (c.id, c.peer)

structure NetworkAdd where
  filePath : PathBuf
  crdt : CRDT
  row : ℕ
  deriving DecidableEq, Repr

structure Remove where
  filePath : PathBuf
  id : ℕ
  peer : ℕ
  row : ℕ
  deriving DecidableEq, Repr

def Remove.identity (r : Remove) : Identity := (r.id, r.peer)

structure IdeAdd where
  filePath : PathBuf
  parentId : Option ℕ
  parentPeer : Option ℕ
  parentTag : Option ℕ
  val : Char
  tag : ℕ
  lineHint : ℕ
  deriving DecidableEq, Repr

inductive NetworkOp where
  | add (op : NetworkAdd)
  | remove (op : Remove)
  deriving DecidableEq, Repr

structure IdeAddConfirmed where
  tag : ℕ
  id : ℕ
  peer : ℕ
  deriving DecidableEq, Repr

inductive Error where
  | generic (msg : String)
  | readFail (msg : String)
  | outOfBounds (msg : String)
  deriving DecidableEq, Repr

@[simp] theorem tick_eq_some {c d : ℕ} : tick c = some d ↔ c + 1 < 2 ^ 32 ∧ d = c + 1 := by
  unfold tick
  split <;> simp_all [eq_comm]

end CrdtTypes
