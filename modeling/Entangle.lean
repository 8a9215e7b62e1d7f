import Entangle.Lib.Transition
import Entangle.Lib.FreeChain
import Entangle.Lib.TaggedStack
import Entangle.Lib.Word
import Entangle.Lib.Bytes
import Entangle.Lib.Ownership
import Entangle.Lib.Tables
import Entangle.Lib.Calls
import Entangle.Lib.BitWords
import Entangle.Lib.Counting
import Entangle.Lib.LockedFiles
import Entangle.Platform.Error
import Entangle.Platform.SharedMemory
import Entangle.Platform.EventNotification
import Entangle.Platform.EventBackends
import Entangle.Platform.ProcessMonitor
import Entangle.Lockfree.IndexSet
import Entangle.Lockfree.MockIndexAllocator
import Entangle.Lockfree.IndexSetSteps
import Entangle.Lockfree.BorrowedCount
import Entangle.Lockfree.AtomicBitSet
import Entangle.Lockfree.BitSetCalls
import Entangle.Lockfree.BitSetSteps
import Entangle.Lockfree.MpmcContainer
import Entangle.Lockfree.MpmcSteps
import Entangle.Lockfree.MpmcReaders
import Entangle.Lockfree.SpscQueue
import Entangle.Lockfree.SpscSteps
import Entangle.Lockfree.SpscObservers
import Entangle.Transport.DataSegment
import Entangle.Transport.ChunkLayout
import Entangle.Transport.Channel
import Entangle.Transport.Disconnect
import Entangle.Transport.Handles
import Entangle.Transport.SegmentManager
import Entangle.Registry.StaticConfig
import Entangle.Registry.ServiceRegistry
import Entangle.Registry.OpenOrCreate
import Entangle.Registry.PayloadTypes
import Entangle.PubSub.Publisher
import Entangle.PubSub.Ownership
import Entangle.PubSub.OwnershipSteps
import Entangle.PubSub.Service
import Entangle.PubSub.Exclusive
import Entangle.PubSub.Accounting
import Entangle.PubSub.Leak
import Entangle.PubSub.Delivery
import Entangle.PubSub.FailedSend
import Entangle.PubSub.ServiceHandles
import Entangle.ReqRes.Service
import Entangle.ReqRes.Ownership
import Entangle.ReqRes.FailedCalls
import Entangle.ReqRes.Streams
import Entangle.ReqRes.Correlation
import Entangle.ReqRes.Load
import Entangle.ReqRes.Workers
import Entangle.ReqRes.WorkersSerialised
import Entangle.Port.Error
import Entangle.Port.Alignment
import Entangle.Port.ZeroCopySafe
import Entangle.Port.SharedSubscriber
import Entangle.Port.SharedSerialised
import Entangle.Port.Blackboard
import Entangle.Port.SharedWriter
import Entangle.Transport.Mapping
import Entangle.Lib.LockFree
import Entangle.Lib.Linearizable
import Entangle.Lockfree.Linearization
import Entangle.Lockfree.Progress
import Entangle.Lib.WeakMemory
import Entangle.Lockfree.SpscWeak
import Entangle.Port.BlackboardProgress
import Entangle.Port.BlackboardWeak
import Entangle.Transport.WeakChannel
import Entangle.Lockfree.IndexSetWeak
import Entangle.Lib.Locks
import Entangle.Port.Mutexes
import Entangle.Lockfree.BitSetScans
import Entangle.Platform.EventLinearization
import Entangle.Port.Events
import Entangle.Transport.SegmentRaces
