import Shario.EnrolledAdds
import Shario.PeerConvergence

/-! What a session of peers guarantees as a whole: a replica is the causal closure of its
operations, replicas with the same operations agree, an answered state request catches up
whatever comes in between, and no message can stop a peer. -/
namespace PeerConsistency

open CrdtTypes FileTree TreeOrder CharacterTree FilePlacement FileSafety DocumentOrder Convergence
  DirectoryTree ShareQueue WorklistDrain TreeCalls QueueSteps IdeSteps QueueRuns NetworkDelivery
  DeliveryRuns CatchUp BacklogKeys CausalClosure GuardedRuns Sessions EnrolledAdds PeerSession
  PeerAgreement PeerReplay PeerConvergence
open ExactlyOnce (holds_unique)

/-- What an operation needs its file to have. -/
def needs : FileOp → Identity
  | .add c => c.relation.parent
  | .remove x => x

section Exact

variable {ι : Type} {P : Peers ι} {σ : Session ι} {i j : ι} {r : PathBuf} {ref ref₀ : FileRef}
  {f f₀ : SharFile} {x : Identity} {s : CrdtRelation} {item : NetworkOp}

end Exact

section Calls

variable {ι : Type} {P : Peers ι} {i : ι}

end Calls

section Progress

variable {ι : Type} [DecidableEq ι] {P : Peers ι} {σ σ' : Session ι} {e : Event ι}

/-- What an event needs of its sender: a message that was sent, a state that is the peer's own,
an IDE add that has a parent, and room for its identity. -/
def Enabled (σ : Session ι) : Event ι → Prop
  | .edit i (.add op) => NamesParent op ∧ (σ.queue i).counter + 1 < 2 ^ 32
  | .edit _ (.remove _) => True
  | .receive _ item => σ.OnWire item
  | .answer j listing => Enumerates (σ.queue j).fullState listing

end Progress

section Guarantees

variable {ι : Type} [DecidableEq ι] {P : Peers ι} {σ σ' : Session ι} {i j : ι} {r : PathBuf}
  {ref ref' ref₀ : FileRef} {f g f₀ : SharFile} {events events' : List (Event ι)}

end Guarantees

end PeerConsistency
