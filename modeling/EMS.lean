import EMS.Interleaving
import EMS.Layout
import EMS.Barrier
import EMS.Alloc
import EMS.AllocRefinement
import EMS.AllocHistory
import EMS.Memory
import EMS.Elements
import EMS.Primitives
import EMS.Rmw
import EMS.AtomicObject
import EMS.ScalarAtomicity
import EMS.Routines
import EMS.Slots
import EMS.Stack
import EMS.QueueProtocol
import EMS.Queue
import EMS.BarrierTimeout
import EMS.Doubles
import EMS.JavaScript
import EMS.Sorting
import EMS.LockOrder
import EMS.Transactions
import EMS.Ledger
import EMS.Placement
import EMS.ElementStore
import EMS.Ownership
import EMS.OpenAddressing
import EMS.KeyMap
import EMS.ParallelLoops
import EMS.SharedMap
import EMS.Rounding
import EMS.StaticSchedule
import EMS.CriticalRegion
import EMS.BarrierRounds
import EMS.SingleRegion
import EMS.RegionCreation
import EMS.ForkJoin
import EMS.PythonForkJoin
import EMS.PythonTransactions
import EMS.PythonValues
import EMS.TransactionAccesses
import EMS.WriteStages
import EMS.TransactionInvariant
import EMS.TransactionSteps
import EMS.Rollback
import EMS.MapProtocol
import EMS.ConcurrentMap
import EMS.LiveAttach
import EMS.ReturningCalls
import EMS.Confinement
import EMS.KeyedCalls
import EMS.RefusedStrings
import EMS.FailedElements
import EMS.CasFrame
import EMS.IndexChecks
import EMS.UnmappableKeys
import EMS.AloneCalls
import EMS.StackOverflow
import EMS.QueueOverflow
import EMS.IntegerDoubles
import EMS.JavaScriptBinding
import EMS.NumberElements
import EMS.NumberHistories
import EMS.CriticalResult
import EMS.ProbedSlots
import EMS.CounterOrder
import EMS.IntegerLimits
import EMS.Concatenations
import EMS.InitialTags
import EMS.WriteTags
import EMS.StoredSums
import EMS.AbsentKeys
import EMS.QueueOrder
import EMS.NumberStorage
import EMS.DimensionIndexes
import EMS.LoopArithmetic
import EMS.AllocSize
import EMS.BufferTable
import EMS.GuardedObject
import EMS.AllocAccesses
import EMS.AllocCapacity
import EMS.AtomicHistory
import EMS.ElementChannels
import EMS.ReadersWriter
import EMS.JsCriticalRegion
import EMS.ValueExchange
import EMS.ParallelCreation
import EMS.SerialTransactions
import EMS.Dictionary
