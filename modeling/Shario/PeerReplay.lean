import Shario.PeerAgreement

/-! What one replica makes of the operations it has issued and received, as long as no removal
empties a row: each of them is applied, or waits for what it depends on. -/
namespace PeerReplay

open CrdtTypes FileTree CharacterTree FilePlacement FileSafety Convergence DirectoryTree ShareQueue
  WorklistDrain TreeCalls QueueSteps IdeSteps QueueRuns NetworkDelivery DeliveryRuns PathRouting
  CatchUp BacklogKeys NewIdentities PeerSession PeerAgreement
open ExactlyOnce (Firm Mild firm_rule holds_unique)

section Replica

variable {q₀ q p p₂ : SharQueue} {H : FileRef → Identity → CrdtRelation → Prop}
  {calls calls' work work' : List NetworkOp} {item : NetworkOp} {ref : FileRef} {x : Identity}

end Replica

section Calls

variable {ι : Type} {P : Peers ι} {i : ι} {q q' p p₂ : SharQueue}
  {H : FileRef → Identity → CrdtRelation → Prop} {received : List NetworkOp} {item : NetworkOp}

variable {op : IdeAdd}

end Calls

end PeerReplay
