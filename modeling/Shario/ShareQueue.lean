import Shario.DirectoryTree
import Shario.WorklistDrain

/-! `SharQueue` of `queue.rs`. The callbacks write to `fired`; the order of the log is the
order in which they are awaited. -/
namespace ShareQueue

open CrdtTypes FileTree DirectoryTree WorklistDrain

inductive Callback where
  | networkAdd (op : NetworkAdd)
  | networkRemove (op : Remove)
  | ideAddConfirm (confirmed : IdeAddConfirmed)
  | ideAdd (networkOp localOp : NetworkAdd)
  | ideRemove (op : Remove)
  deriving DecidableEq, Repr

structure SharQueue where
  ideBacklog : Backlog Identity IdeAdd
  ideTagBacklog : Backlog ℕ IdeAdd
  networkBacklog : Backlog Identity NetworkOp
  ideWorklist : List IdeAdd
  networkWorklist : List NetworkOp
  tagIdentities : HashMap ℕ Identity
  peer : ℕ
  tree : SharDirectory
  counter : ℕ
  fired : List Callback

namespace SharQueue

def new (dirPath : PathBuf) (read : Except String (List FsEntry)) (thisPeerId : ℕ) :
    Option (Except Error SharQueue) := do
  match ← SharDirectory.new read dirPath 0 with
  | .error e => some (.error e)
  | .ok (tree, counter) => some (.ok ⟨∅, ∅, ∅, [], [], ∅, thisPeerId, tree, counter, []⟩)

def root (q : SharQueue) : PathBuf := q.tree.dirName

def toRelativePath (q : SharQueue) (path : PathBuf) : PathBuf :=
  (stripPrefix path q.root).getD path

def toLocalPath (q : SharQueue) (path : PathBuf) : PathBuf := joinPath q.root path

def fullState (q : SharQueue) : List (PathBuf × Characters) :=
  q.tree.fullState.map fun (path, chars) => (q.toRelativePath path, chars)

def fire (q : SharQueue) (c : Callback) : SharQueue := { q with fired := q.fired ++ [c] }

/-- The op a local IDE gets: its parent is the character before it in rendered order. -/
def rewriteParent (tree : SharDirectory) (filePath : PathBuf) (position : Position)
    (op : NetworkAdd) : NetworkAdd :=
  match tree.predecessorIdentity filePath position with
  | .ok (some x) =>
    { op with crdt.relation.parentId := x.1, crdt.relation.parentPeer := x.2 }
  | _ => op

def removeOperation (q : SharQueue) (op : Remove) : Option (Option Position × SharQueue) :=
  if op.identity = FileTree.root then some (none, q)
  else do
    let (removed, tree) ← q.tree.removeCrdt op.filePath op.row op.identity
    let q := { q with tree }
    match removed with
    | .ok pos => some (pos, q)
    | .error _ =>
      some (none, { q with networkBacklog := push q.networkBacklog op.identity (.remove op) })

def removeNetworkOperation (q : SharQueue) (op : Remove) : Option SharQueue := do
  let op := { op with filePath := q.toLocalPath op.filePath }
  let (operation, q) ← q.removeOperation op
  some (if operation.isSome then q.fire (.networkRemove op) else q)

/-- `dependants` is what the flag `clearing_worklist` chooses between. -/
def addNetworkOperationInner (q : SharQueue) (op : NetworkAdd)
    (dependants : SharQueue → Identity → Option SharQueue) : Option SharQueue :=
  let op := { op with filePath := q.toLocalPath op.filePath }
  let q := { q with counter := max q.counter op.crdt.id }
  if op.crdt.identity = FileTree.root then some q
  else do
    let (pos, tree) ← q.tree.addCrdt op.filePath op.row op.crdt
    let q := { q with tree }
    match pos with
    | .ok (some position) =>
      dependants (q.fire (.networkAdd (rewriteParent tree op.filePath position op)))
        op.crdt.identity
    | .ok none => some q
    | .error _ =>
      some { q with networkBacklog := push q.networkBacklog op.crdt.relation.parent (.add op) }

/-- The dependants of `x` go to the end of the worklist. -/
def queueNetworkBacklog (q : SharQueue) (x : Identity) : SharQueue :=
  match q.networkBacklog.lookup x with
  | some backlogged =>
    { q with
      networkBacklog := q.networkBacklog.erase x
      networkWorklist := q.networkWorklist ++ backlogged }
  | none => q

def popNetwork (q : SharQueue) : Option (NetworkOp × SharQueue) :=
  match q.networkWorklist with
  | item :: rest => some (item, { q with networkWorklist := rest })
  | [] => none

/-- The body of the loop of `drain_network_worklist`. -/
def retryNetwork (q : SharQueue) : NetworkOp → Option SharQueue
  | .add op => q.addNetworkOperationInner op fun q x => some (q.queueNetworkBacklog x)
  | .remove op => q.removeNetworkOperation op

/-- Waiting operations, and the rounds they can take: each round applies an operation or
sends it back to a backlog, and applying comes before the worklist can grow. -/
def networkRounds (q : SharQueue) : ℕ :=
  let pending := q.networkWorklist.length + size q.networkBacklog
  pending * (pending + 1) + q.networkWorklist.length

def drainNetworkWorklist (q : SharQueue) : Option SharQueue :=
  drain popNetwork retryNetwork (q.networkRounds + 1) q

def clearNetworkBacklog (q : SharQueue) (x : Identity) : Option SharQueue :=
  match q.networkBacklog.lookup x with
  | some _ => (q.queueNetworkBacklog x).drainNetworkWorklist
  | none => some q

def addNetworkOperation (q : SharQueue) (op : NetworkAdd) : Option SharQueue :=
  q.addNetworkOperationInner op clearNetworkBacklog

/-- The parent by identity, or by tag once that tag is known. -/
def ideParent (q : SharQueue) (op : IdeAdd) : Option Identity :=
  match op.parentId, op.parentPeer with
  | some id, some peer => some (id, peer)
  | _, _ => op.parentTag.bind fun parentTag => q.tagIdentities.lookup parentTag

def addIdeOperationInner (q : SharQueue) (op : IdeAdd)
    (dependants : SharQueue → Identity → Option SharQueue) : Option SharQueue :=
  match q.ideParent op with
  | none => do
    -- `expect`: an add without any parent is a panic
    let parentTag ← op.parentTag
    some { q with ideTagBacklog := push q.ideTagBacklog parentTag op }
  | some parent => do
    let x ← q.tagIdentities.lookup op.tag
    let crdt : CRDT := ⟨x.1, x.2, .new op.val parent.1 parent.2⟩
    let (pos, tree) ← q.tree.addCrdt op.filePath op.lineHint crdt
    let q := { q with tree }
    match pos with
    | .ok (some pos) => do
      let q ← dependants q x
      let networkOp : NetworkAdd := ⟨q.toRelativePath op.filePath, crdt, pos.1⟩
      some (q.fire (.ideAdd networkOp (rewriteParent q.tree op.filePath pos networkOp)))
    | .ok none => some q
    | .error _ => some { q with ideBacklog := push q.ideBacklog parent op }

def queueIdeBacklog (q : SharQueue) (x : Identity) : SharQueue :=
  match q.ideBacklog.lookup x with
  | some backlogged =>
    { q with ideBacklog := q.ideBacklog.erase x, ideWorklist := q.ideWorklist ++ backlogged }
  | none => q

def popIde (q : SharQueue) : Option (IdeAdd × SharQueue) :=
  match q.ideWorklist with
  | item :: rest => some (item, { q with ideWorklist := rest })
  | [] => none

def retryIde (q : SharQueue) (op : IdeAdd) : Option SharQueue :=
  q.addIdeOperationInner op fun q x => some (q.queueIdeBacklog x)

def ideRounds (q : SharQueue) : ℕ :=
  let pending := q.ideWorklist.length + size q.ideBacklog + size q.ideTagBacklog
  pending * (pending + 1) + q.ideWorklist.length

def drainIdeWorklist (q : SharQueue) : Option SharQueue :=
  drain popIde retryIde (q.ideRounds + 1) q

def clearIdeBacklog (q : SharQueue) (x : Identity) : Option SharQueue :=
  match q.ideBacklog.lookup x with
  | some _ => (q.queueIdeBacklog x).drainIdeWorklist
  | none => some q

/-- What waited for `tag` goes to the end of the worklist. -/
def queueTagBacklog (q : SharQueue) (tag : ℕ) : SharQueue :=
  match q.ideTagBacklog.lookup tag with
  | some waiting =>
    { q with ideTagBacklog := q.ideTagBacklog.erase tag, ideWorklist := q.ideWorklist ++ waiting }
  | none => q

def confirmIde (q : SharQueue) (tag counter : ℕ) : SharQueue :=
  { q with counter, tagIdentities := q.tagIdentities.insert tag (counter, q.peer) }.fire
    (.ideAddConfirm ⟨tag, counter, q.peer⟩)

def addIdeOperation (q : SharQueue) (op : IdeAdd) : Option SharQueue := do
  let counter ← tick q.counter
  let q := (q.confirmIde op.tag counter).queueTagBacklog op.tag
  let q ← q.addIdeOperationInner op clearIdeBacklog
  q.drainIdeWorklist

def removeIdeOperation (q : SharQueue) (op : Remove) : Option SharQueue := do
  let (operation, q) ← q.removeOperation op
  some (if operation.isSome then
    q.fire (.ideRemove { op with filePath := q.toRelativePath op.filePath }) else q)

end SharQueue

end ShareQueue
