import Carat.SteeredTree
import Carat.IntervalSearch
import Carat.KernelRbtree
import Carat.RedBlackBalance
import Carat.SteeredInsertion
import Carat.LinkedTree
import Carat.LabelledRun
import Carat.Interleaving
import Carat.FirstByKey
import Carat.KeyedInsertion
import Carat.NumeralText
import Carat.Counters
import Carat.Reachability
import Carat.Dominance
import Carat.PolicyTree
import Carat.RegionDisjointness
import Carat.KeyedRegions
import Carat.PolicyModule
import Carat.GuardLog
import Carat.PolicyScan
import Carat.PolicyContent
import Carat.WriteOutcomes
import Carat.PolicyText
import Carat.StaleBytes
import Carat.DeviceRuns
import Carat.UserSpaceApp
import Carat.PermissionOrder
import Carat.OpenFile
import Carat.DeviceFiles
import Carat.PolicyRecords
import Carat.PolicyConcurrency
import Carat.WaitFreedom
import Carat.ReaderProgress
import Carat.AtomicPolicy
import Carat.RegisterRuns
import Carat.SearchShapes
import Carat.SerialHistories
import Carat.ShapeIndependence
import Carat.Weaving
import Carat.ModuleIR
import Carat.TexasPass
import Carat.GuardInsertion
import Carat.Renumbering
import Carat.PassMetrics
import Carat.SsaForm
import Carat.Mediation
import Carat.ModuleRun
import Carat.FrameMatching
import Carat.Instrumentation
import Carat.CallGraph
import Carat.ValueErasure
import Carat.FlatMemory
import Carat.Exemptions
import Carat.GuardedAccess
import Carat.ConcurrentModule
import Carat.GuardedMachine
import Carat.MachineProgress
import Carat.AdvisoryPolicy
import Carat.SsaPreservation
import Carat.RepeatedPass
