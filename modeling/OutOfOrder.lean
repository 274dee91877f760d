import OutOfOrder.Config.Reader
import OutOfOrder.Pool.Lemmas
import OutOfOrder.Proofs.Core.Availability
import OutOfOrder.Proofs.Core.Barrier
import OutOfOrder.Proofs.Core.Busy
import OutOfOrder.Proofs.Core.Calls
import OutOfOrder.Proofs.Core.CommitOrder
import OutOfOrder.Proofs.Core.Damping
import OutOfOrder.Proofs.Core.Deferred
import OutOfOrder.Proofs.Core.Delay
import OutOfOrder.Proofs.Core.Dependencies
import OutOfOrder.Proofs.Core.Drain
import OutOfOrder.Proofs.Core.Flush
import OutOfOrder.Proofs.Core.Hysteresis
import OutOfOrder.Proofs.Core.LateRegisters
import OutOfOrder.Proofs.Core.Lock
import OutOfOrder.Proofs.Core.Occupancy
import OutOfOrder.Proofs.Core.OrderEdge
import OutOfOrder.Proofs.Core.Recovery
import OutOfOrder.Proofs.Core.Refusal
import OutOfOrder.Proofs.Core.Registers
import OutOfOrder.Proofs.Core.Requests
import OutOfOrder.Proofs.Core.Resync
import OutOfOrder.Proofs.Core.Sampling
import OutOfOrder.Proofs.Core.Serialization
import OutOfOrder.Proofs.Core.Speculation
import OutOfOrder.Proofs.Core.Stale
import OutOfOrder.Proofs.Core.Stream
import OutOfOrder.Proofs.Core.Waiting
import OutOfOrder.Proofs.Core.Windows
import OutOfOrder.Proofs.Paging.Acceptance
import OutOfOrder.Proofs.Paging.EntryCache
import OutOfOrder.Proofs.Paging.Independence
import OutOfOrder.Proofs.Paging.Latency
import OutOfOrder.Proofs.Paging.Lifecycle
import OutOfOrder.Proofs.Paging.Tables
import OutOfOrder.Proofs.Paging.Translation
import OutOfOrder.Proofs.Pool
import OutOfOrder.Proofs.RingBuffer
import OutOfOrder.RingBuffer.Lemmas
import OutOfOrder.Stats.Report
import OutOfOrder.Surroundings.Recorded
