import QueueBench.AtomicConservation
import QueueBench.AtomicOrder
import QueueBench.AtomicQueue
import QueueBench.AtomicRun
import QueueBench.AtomicScan
import QueueBench.BasicLinearization
import QueueBench.BasicQueue
import QueueBench.BasicRun
import QueueBench.BlockingBuffer
import QueueBench.BlockingLinearization
import QueueBench.BlockingQueue
import QueueBench.BlockingRun
import QueueBench.CreatedSize
import QueueBench.LatencySummary
import QueueBench.Lib.Barrier
import QueueBench.Lib.Buckets
import QueueBench.Lib.CircularList
import QueueBench.Lib.Comparator
import QueueBench.Lib.CountedLoop
import QueueBench.Lib.Dispenser
import QueueBench.Lib.Fifo
import QueueBench.Lib.Heap
import QueueBench.Lib.Ledger
import QueueBench.Lib.Linearization
import QueueBench.Lib.LinkedList
import QueueBench.Lib.LostUpdate
import QueueBench.Lib.Machine
import QueueBench.Lib.Mutex
import QueueBench.Lib.OrderStatistics
import QueueBench.Lib.RingArith
import QueueBench.Lib.RingContents
import QueueBench.Lib.RingList
import QueueBench.Lib.RoundRobin
import QueueBench.Lib.Sole
import QueueBench.Lib.Spawn
import QueueBench.Lib.Tickets
import QueueBench.Lib.Tokens
import QueueBench.Lib.Transition
import QueueBench.Lib.Word
import QueueBench.Lib.Work
import QueueBench.LockCounter
import QueueBench.LockCounterRace
import QueueBench.LockFreeLinearization
import QueueBench.LockFreeQueue
import QueueBench.LockFreeShape
import QueueBench.LockFreeSteps
import QueueBench.MpiCompletion
import QueueBench.MpiProtocol
import QueueBench.MultipleQueues
import QueueBench.OpenMpRun
import QueueBench.PlainQueue
import QueueBench.RandInterval
import QueueBench.RcuQueue
import QueueBench.RingIndices
import QueueBench.RingPhases
import QueueBench.SQueueLatency
import QueueBench.SQueueRounds
import QueueBench.SQueueThroughput
import QueueBench.SQueueTicks
import QueueBench.SampleMerge
import QueueBench.SemiBlockingLinearization
import QueueBench.SemiBlockingOrder
import QueueBench.SemiBlockingQueue
import QueueBench.SequentialFifo
import QueueBench.SpmcDeal
import QueueBench.SpmcDelivery
import QueueBench.SpmcQueues
import QueueBench.StartBarrier
import QueueBench.StlSamples
import QueueBench.StlSort
import QueueBench.ThreadList
import QueueBench.ThroughputCounts
import QueueBench.TicketDiscipline
import QueueBench.TicketEmptiness
import QueueBench.TicketFifo
import QueueBench.TicketLimits
import QueueBench.TicketLinearization
import QueueBench.TicketPolling
import QueueBench.TicketQueue
