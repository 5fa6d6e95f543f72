import Shario.Hydration
import Shario.JoinRaces

/-! The queue that racing joins leave behind, as a replica of a session. -/
namespace RacedStart

open CrdtTypes FileTree DirectoryTree DocumentOrder ShareQueue QueueSteps QueueRuns DeliveryRuns
  CatchUp GuardedRuns PeerSession PeerAgreement PeerConvergence PeerConsistency Hydration JoinRaces
open BufferReplay (Sent)

/-- A peer that has a loaded queue and nothing else. -/
structure Ready {ι : Type} (P : Peers ι) (σ : Session ι) (k : ι) : Prop where
  queue : σ.queue k = P.loaded k
  received : σ.received k = []

section Race

variable {ι κ κ' : Type} [DecidableEq ι] [DecidableEq κ] [DecidableEq κ'] {P : Peers ι}
  {σ : Session ι} {k k' : ι} {events : List (PeerSession.Event ι)} {loads : κ → Prop}
  {loads' : κ' → Prop} {l : List (JoinRaces.Event κ)} {l' : List (JoinRaces.Event κ')}
  {w : SharedWrap κ} {w' : SharedWrap κ'} {item : NetworkOp}

end Race

end RacedStart
