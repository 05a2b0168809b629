import AlSem.Lib.Ranking
import AlSem.Lib.Bfs
import AlSem.L4.ParamGuard
import AlSem.L4.TypedEdges
import AlSem.L4.PdOrder
import AlSem.L4.DbEffectLfp
import AlSem.Lib.Machine
import AlSem.Resident.Prepared
import AlSem.Lib.Lines
import AlSem.Wire.Frame
import AlSem.Wire.BoundFrame
import AlSem.L4.GuardFrame
import AlSem.L4.CfgGiveUp
import AlSem.L4.CfgDirty
import AlSem.Lib.BigEndian
import AlSem.Lib.StateExcept
import AlSem.Snapshot.CborRoundTrip
import AlSem.L4.BundleRun
import AlSem.L4.ReverseIndexSpec
import AlSem.L4.PdDeltaSolve
import AlSem.L4.PdProducer
import AlSem.L4.GuardCarry
import AlSem.L4.DbEffectViaRow
import AlSem.L4.SideFacts
import AlSem.Impact.WalkCalls
import AlSem.TestSelect.SelectExact
import AlSem.Lib.Levels
import AlSem.Lsp.EncodingExact
import AlSem.Lsp.RungOneExact
import AlSem.Diff.RenameExact
import AlSem.L5.DiffExact
import AlSem.L5.DiffSafety
import AlSem.Diff.RenamePairs
import AlSem.Diff.RenameCollisions
import AlSem.L5.Ordering
import AlSem.Policy.PolicyEngine
import AlSem.Body.Outline
import AlSem.L5.FrameChain
import AlSem.Body.OutlineRuns
import AlSem.L5.CoExecution
import AlSem.L5.Dominance
import AlSem.Body.SuccessPath
import AlSem.Snapshot.JoinedKey
import AlSem.Lib.Grounding
import AlSem.L5.ReverseCallGraph
import AlSem.L5.ClosedWorldTemp
import AlSem.Lib.SparseVec
import AlSem.L5.ParamTemp
import AlSem.L5.D1Liveness
import AlSem.Model.OrderedRuns
import AlSem.L5.PendingWrites
import AlSem.L5.PendingSound
import AlSem.Lib.Weakening
import AlSem.L5.TransactionSpans
import AlSem.L5.SpanMembers
import AlSem.Resolve.TypeText
import AlSem.Lib.Brackets
import AlSem.Lib.Blanks
import AlSem.Resolve.TypeTerms
import AlSem.Resolve.TypeClauses
import AlSem.Lib.LastWins
import AlSem.Snapshot.ByteOrder
import AlSem.L4.UncertaintyKey
import AlSem.L5.PathUncertainty
import AlSem.L5.PathWalker
import AlSem.Lib.KeyedSystem
import AlSem.L5.RecrefFlow
import AlSem.L5.RecrefEquations
import AlSem.L5.RecrefSound
import AlSem.Resolve.ArgDispatch
import AlSem.Resolve.PickOverload
import AlSem.Resolve.ParamInfos
import AlSem.Resolve.InObject
import AlSem.Resolve.InObjectStable
import AlSem.Host.Child
import AlSem.Host.ChildLedger
import AlSem.Host.ChildInvariant
import AlSem.Host.ChildProgress
import AlSem.Host.ChildFlight
import AlSem.Host.ChildOrder
import AlSem.Host.FrontQueue
import AlSem.Host.Protocol
import AlSem.Host.ProtocolEnds
import AlSem.Host.Supervision
import AlSem.Mcp.PoolFlight
import AlSem.Mcp.PoolFlags
