import Kendylib.Foundations.Arrivals
import Kendylib.Foundations.BinaryHeap
import Kendylib.Foundations.Blocks
import Kendylib.Foundations.DoublyLinked
import Kendylib.Foundations.Exec
import Kendylib.Foundations.Freeing
import Kendylib.Foundations.Interleaving
import Kendylib.Foundations.Ledger
import Kendylib.Foundations.Linearize
import Kendylib.Foundations.Monitor
import Kendylib.Foundations.Queues
import Kendylib.Foundations.RedBlack
import Kendylib.Foundations.RefHeap
import Kendylib.Foundations.RoundRobin
import Kendylib.Foundations.Run
import Kendylib.Foundations.Word
import Kendylib.Container.BurtleHash
import Kendylib.Container.HashMap
import Kendylib.Container.HashMapExpand
import Kendylib.Container.HashMapLayout
import Kendylib.Container.HashMapProbing
import Kendylib.Container.HashMapRemoval
import Kendylib.Container.HashMapRuns
import Kendylib.Container.HashMapTable
import Kendylib.Container.KString
import Kendylib.Container.KStringRuns
import Kendylib.Container.KStringSplit
import Kendylib.Container.ListT
import Kendylib.Container.ListTRuns
import Kendylib.Container.ListTIterators
import Kendylib.Container.RBtree
import Kendylib.Container.RBtreeCheck
import Kendylib.Container.RBtreeDelete
import Kendylib.Container.RBtreeDestroy
import Kendylib.Container.RBtreeFixUp
import Kendylib.Container.RBtreeIter
import Kendylib.Container.RBtreeIterRuns
import Kendylib.Container.RBtreeMap
import Kendylib.Container.RBtreeRuns
import Kendylib.Container.RBtreeSentinel
import Kendylib.Container.RBtreeShape
import Kendylib.Container.Vector
import Kendylib.Container.VectorRuns
import Kendylib.Container.VectorValues
import Kendylib.Alloc.BlockObjAllocator
import Kendylib.Alloc.BlockObjAllocatorRuns
import Kendylib.Alloc.DestroyAllocators
import Kendylib.Alloc.LocalPool
import Kendylib.Alloc.ObjectSizes
import Kendylib.Alloc.ThreadAllocators
import Kendylib.Alloc.ThreadAllocatorsRuns
import Kendylib.Sync.Barrior
import Kendylib.Sync.BlockQueue
import Kendylib.Sync.BlockQueueCalls
import Kendylib.Sync.BlockQueueRuns
import Kendylib.Sync.SpinLock
import Kendylib.Sync.SpinLockRuns
import Kendylib.Sync.Thread
import Kendylib.Sync.Tls
import Kendylib.Timer.TimerCallbacks
import Kendylib.Timer.TimerCancel
import Kendylib.Timer.TimerDeadlines
import Kendylib.Timer.TimerRanges
import Kendylib.Timer.TimerRearm
import Kendylib.Timer.TimerRecord
import Kendylib.Timer.TimerSlots
import Kendylib.Timer.TimingWheel
import Kendylib.Timer.TimingWheelRuns
import Kendylib.Coro.DestroyScheduler
import Kendylib.Coro.MinHeap
import Kendylib.Coro.MinHeapContents
import Kendylib.Coro.MinHeapRuns
import Kendylib.Coro.PopulationRuns
import Kendylib.Coro.RoundRobin
import Kendylib.Coro.Scheduler
import Kendylib.Coro.SchedulerRuns
import Kendylib.Except.ExceptionStack
import Kendylib.Except.Rethrow
import Kendylib.Log.LogFile
import Kendylib.Log.LogPasses
import Kendylib.Log.LogSystem
import Kendylib.Log.LogSystemRuns
import Kendylib.Net.Acceptor
import Kendylib.Net.AcceptorRuns
import Kendylib.Net.ActiveListRuns
import Kendylib.Net.Buffer
import Kendylib.Net.Connection
import Kendylib.Net.Connector
import Kendylib.Net.ConnectorRequests
import Kendylib.Net.ConnectorRounds
import Kendylib.Net.ConnectorRuns
import Kendylib.Net.CopyOnWrite
import Kendylib.Net.DescriptorRuns
import Kendylib.Net.EmptyFrames
import Kendylib.Net.Engine
import Kendylib.Net.EngineRuns
import Kendylib.Net.FailedReads
import Kendylib.Net.Flushing
import Kendylib.Net.HandleMgr
import Kendylib.Net.HostileReads
import Kendylib.Net.Lifecycle
import Kendylib.Net.LifecycleRuns
import Kendylib.Net.LinkList
import Kendylib.Net.LinkListRuns
import Kendylib.Net.Network
import Kendylib.Net.NetworkValues
import Kendylib.Net.RPacket
import Kendylib.Net.RawPackets
import Kendylib.Net.Reading
import Kendylib.Net.Receive
import Kendylib.Net.ReceiveChain
import Kendylib.Net.ReceiveRuns
import Kendylib.Net.References
import Kendylib.Net.ReferencesRuns
import Kendylib.Net.Relay
import Kendylib.Net.RelayRuns
import Kendylib.Net.Requests
import Kendylib.Net.Rewriting
import Kendylib.Net.RoundTrip
import Kendylib.Net.Rounding
import Kendylib.Net.SendQueue
import Kendylib.Net.SendRuns
import Kendylib.Net.Sender
import Kendylib.Net.SharedBuffers
import Kendylib.Net.SharedReads
import Kendylib.Net.Snapshot
import Kendylib.Net.System
import Kendylib.Net.WPacket
import Kendylib.Net.Writing
import Kendylib.Net.WritingRuns
