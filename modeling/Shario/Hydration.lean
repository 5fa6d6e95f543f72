import Shario.PeerConsistency
import Shario.StateRequest

/-! How a peer comes into a session: it asks other peers for their state before it has a queue,
listens to the gossip, and gets its queue with the first join of its IDE. -/
namespace Hydration

open CrdtTypes FileTree CharacterTree DirectoryTree Convergence ShareQueue QueueSteps QueueRuns CatchUp
  GuardedRuns PeerSession PeerAgreement PeerReplay PeerConvergence PeerConsistency ByteFrames
  StateRequest

section Receipts

variable {ι : Type} {P : Peers ι} {σ : Session ι} {k : ι} {item : NetworkOp} {q : SharQueue}

variable [DecidableEq ι] {items : List NetworkOp}

end Receipts

section Start

variable {ι κ : Type} [DecidableEq ι] {P : Peers ι} {σ : Session ι} {k : ι}
  {events : List (Event ι)} {codec : Codec} {dial : κ → Reply} {peers : List κ}
  {later : List NetworkOp} {dirPath : PathBuf} {read : Except String (List FsEntry)} {peer : ℕ}

end Start

end Hydration
