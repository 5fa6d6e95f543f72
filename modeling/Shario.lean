import Shario.TreeOrder
import Shario.RowLayout
import Shario.CrdtTypes
import Shario.FileTree
import Shario.FileSearch
import Shario.CharacterTree
import Shario.FilePlacement
import Shario.GuardedRuns
import Shario.FileSafety
import Shario.FileShape
import Shario.DocumentOrder
import Shario.Convergence
import Shario.DirectoryTree
import Shario.WorklistDrain
import Shario.ShareQueue
import Shario.PathRouting
import Shario.TreeCalls
import Shario.QueueSteps
import Shario.NetworkDelivery
import Shario.DeliveryRuns
import Shario.ExactlyOnce
import Shario.IdeSteps
import Shario.QueueRuns
import Shario.CatchUp
import Shario.BacklogKeys
import Shario.HintFreedom
import Shario.SinglePlace
import Shario.LineBreakOrder
import Shario.ScanInsert
import Shario.SiblingOrder
import Shario.Survivors
import Shario.TombstonePath
import Shario.BufferReplay
import Shario.NewIdentities
import Shario.GenesisOrder
import Shario.Sessions
import Shario.PrivateTags
import Shario.LandsOnce
import Shario.TextSplices
import Shario.BenchMirror
import Shario.FlatClient
import Shario.ChildOrder
import Shario.SendOrder
import Shario.LateErrors
import Shario.GrowOnlyTree
import Shario.LosslessDrains
import Shario.FaithfulLoading
import Shario.EnrolledAdds
import Shario.OwnTieBreak
import Shario.CausalClosure
import Shario.PeerSession
import Shario.PeerAgreement
import Shario.PeerReplay
import Shario.PeerConvergence
import Shario.PeerConsistency
import Shario.DocMirror
import Shario.FlatText
import Shario.SocketBench
import Shario.SocketRuns
import Shario.TraceText
import Shario.ByteFrames
import Shario.StateRequest
import Shario.Hydration
import Shario.JoinRaces
import Shario.RacedStart
import Shario.BroadcastChannel
