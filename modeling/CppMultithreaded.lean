import CppMultithreaded.Mutex
import CppMultithreaded.ThreadWeight
import CppMultithreaded.BoundedFifo
import CppMultithreaded.Channel
import CppMultithreaded.MutexCounter
import CppMultithreaded.ChannelFifo
import CppMultithreaded.ByteString
import CppMultithreaded.ChannelWakeup
import CppMultithreaded.ChannelThrow
import CppMultithreaded.QueueRecord
import CppMultithreaded.QueueModel
import CppMultithreaded.QueueReservation
import CppMultithreaded.QueueRing
import CppMultithreaded.QueueDelivery
import CppMultithreaded.QueueSingle
import CppMultithreaded.QueueBoundary
import CppMultithreaded.QueueEmpty
import CppMultithreaded.QueueOversize
import CppMultithreaded.QueueUntrusted
import CppMultithreaded.ShmModel
import CppMultithreaded.ShmInit
import CppMultithreaded.ShmAttach
import CppMultithreaded.ShmRegistration
import CppMultithreaded.ShmUnlink
import CppMultithreaded.ShmSized
import CppMultithreaded.ShmThrow
import CppMultithreaded.Framing
import CppMultithreaded.PoolMessage
import CppMultithreaded.PoolArguments
import CppMultithreaded.PoolStream
import CppMultithreaded.PoolLink
import CppMultithreaded.PoolRouting
import CppMultithreaded.PoolStages
import CppMultithreaded.PoolPlaces
import CppMultithreaded.PoolModel
import CppMultithreaded.PoolLoops
import CppMultithreaded.PoolRefinement
import CppMultithreaded.PoolResults
import CppMultithreaded.PoolOutcome
import CppMultithreaded.PoolShutdown
import CppMultithreaded.PoolOrder
import CppMultithreaded.PoolGraceful
import CppMultithreaded.PoolDeath
import CppMultithreaded.PoolDescriptor
import CppMultithreaded.PoolReuse
import CppMultithreaded.PoolFailure
import CppMultithreaded.Transfer
import CppMultithreaded.PoolTransfer
import CppMultithreaded.PoolConstructor
import CppMultithreaded.ApplyFunction
import CppMultithreaded.ApplyThrow
import CppMultithreaded.DepthFirst
import CppMultithreaded.DfsModel
import CppMultithreaded.DfsOrder
import CppMultithreaded.DfsSingle
import CppMultithreaded.DfsThrow
import CppMultithreaded.DfsTrace
import CppMultithreaded.SchedulerModel
import CppMultithreaded.SchedulerFrames
import CppMultithreaded.SchedulerDfs
import CppMultithreaded.Completion
import CppMultithreaded.MutexProgress
import CppMultithreaded.ChannelProgress
import CppMultithreaded.HappensBefore
import CppMultithreaded.MutexOrder
import CppMultithreaded.QueueRace
import CppMultithreaded.QueueOrder
import CppMultithreaded.QueueProgress
import CppMultithreaded.QueueClients
import CppMultithreaded.QueueFits
import CppMultithreaded.QueueCompletion
import CppMultithreaded.Monitor
import CppMultithreaded.PoolFuture
import CppMultithreaded.PoolAwait
import CppMultithreaded.PoolProgress
import CppMultithreaded.Ownership
import CppMultithreaded.PoolRank
import CppMultithreaded.PoolRest
