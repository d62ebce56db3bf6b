import M3bp.Transition
import M3bp.Counting
import M3bp.Acyclic
import M3bp.Scheduler
import M3bp.DependencySafety
import M3bp.SchedulerProgress
import M3bp.NoLostWakeup
import M3bp.ByteMemory
import M3bp.RadixSort
import M3bp.MarkedSort
import M3bp.RadixSortSpec
import M3bp.RadixCalls
import M3bp.RadixDelivery
import M3bp.KeyBlock
import M3bp.KeyOrder
import M3bp.ShufflePartition
import M3bp.ShuffleSort
import M3bp.ShuffleLayout
import M3bp.ShuffleScan
import M3bp.ShuffleOutput
import M3bp.RadixSortKeys
import M3bp.ShuffleGrouping
import M3bp.ShuffleOrder
import M3bp.EdgePath
import M3bp.FlowGraph
import M3bp.LogicalGraph
import M3bp.GraphBuilder
import M3bp.GraphWiring
import M3bp.GraphMeaning
import M3bp.UndefinedMovement
import M3bp.ShuffleRoundTrip
import M3bp.GroupedFormat
import M3bp.InputBuffer
import M3bp.ValueSort
import M3bp.ValueSortView
import M3bp.InitializedViews
import M3bp.RadixRename
import M3bp.KeyClasses
import M3bp.KeyOverrun
import M3bp.KeyWindows
import M3bp.RadixViews
import M3bp.ProcessGate
import M3bp.ConcurrencyLimit
import M3bp.SchedulerEffects
import M3bp.Engine
import M3bp.EngineSetup
import M3bp.EngineMoves
import M3bp.EngineSteps
import M3bp.EngineInvariant
import M3bp.EngineLedger
import M3bp.EnginePrograms
import M3bp.EngineFinish
import M3bp.EngineGraph
import M3bp.EngineStores
import M3bp.EngineArrivals
import M3bp.EnginePool
import M3bp.EngineRelease
import M3bp.GateRuns
import M3bp.CycleSearch
import M3bp.CycleDetection
import M3bp.PartitionJoin
import M3bp.LockCount
import M3bp.LocalityManager
import M3bp.BalancedRounds
import M3bp.WorkerPlacement
import M3bp.Topology
import M3bp.RandomWorker
import M3bp.EngineDelivery
import M3bp.EngineConsumption
import M3bp.EngineGates
import M3bp.EngineProgress
import M3bp.EngineConcurrency
import M3bp.EnginePlacement
import M3bp.EngineRest
import M3bp.EngineReferences
import M3bp.EnginePartitions
import M3bp.EngineLocality
import M3bp.MemoryAccounting
import M3bp.BufferLayout
import M3bp.SerializedRoundTrip
import M3bp.OutputWriter
import M3bp.Gather
import M3bp.ValueSortGroups
import M3bp.WorkerThread
import M3bp.ThreadObservers
import M3bp.JsonText
import M3bp.ProfileEventLogger
import M3bp.ProfileEventLog
import M3bp.Monitor
import M3bp.Lifecycle
import M3bp.EngineCancellation
import M3bp.EngineStages
import M3bp.EngineFinalizers
import M3bp.LifecycleView
import M3bp.Execution
import M3bp.ExecutionSteps
import M3bp.ExecutionEras
import M3bp.ExecutionView
import M3bp.ExecutionLifecycle
import M3bp.ExecutionMoves
import M3bp.ExecutionOutcome
import M3bp.ExecutionProgress
import M3bp.ExecutionCancellation
import M3bp.Executor
import M3bp.EngineContents
import M3bp.EngineIntake
import M3bp.EngineFlow
import M3bp.GroupedRecords
import M3bp.EngineJoins
import M3bp.EngineEmitted
import M3bp.EngineRecords
