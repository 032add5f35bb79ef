import LinuxCoding.MyPipe.Fifo
import LinuxCoding.MyPipe.Registration
import LinuxCoding.MyPipe.Wakeup
import LinuxCoding.Relay.Relayer
import LinuxCoding.Relay.Integrity
import LinuxCoding.Relay.Loop
import LinuxCoding.Relay.Select
import LinuxCoding.Relay.Readiness
import LinuxCoding.Relay.Poll
import LinuxCoding.Relay.Epoll
import LinuxCoding.Relay.Hangup
import LinuxCoding.AnyTimer.Model
import LinuxCoding.AnyTimer.Cell
import LinuxCoding.AnyTimer.Schedule
import LinuxCoding.AnyTimer.Callbacks
import LinuxCoding.AnyTimer.Expiry
import LinuxCoding.AnyTimer.Reaping
import LinuxCoding.ServerPool.Control
import LinuxCoding.DirPool.Fifo
import LinuxCoding.DirPool.Wakeup
import LinuxCoding.DirPool.Totals
import LinuxCoding.DirPool.Deadlock
import LinuxCoding.TaskPool.Shape
import LinuxCoding.Library.Chain
import LinuxCoding.TaskPool.Order
import LinuxCoding.TaskPool.Wakeup
import LinuxCoding.AnyTimer.Preemption
import LinuxCoding.Mytbf.Table
import LinuxCoding.Mytbf.Law
import LinuxCoding.Mytbf.Threads
import LinuxCoding.Mytbf.Safety
import LinuxCoding.Mytbf.Passes
import LinuxCoding.DirPool.Listing
import LinuxCoding.DirPool.Progress
import LinuxCoding.DirPool.Schedule
import LinuxCoding.ServerPool.Accounting
import LinuxCoding.ServerPool.Shrinking
import LinuxCoding.ServerPool.Reuse
import LinuxCoding.MyFtp.Transfer
import LinuxCoding.MyFtp.Sharing
import LinuxCoding.Dgram.Ebasic
import LinuxCoding.FifoChat.Chat
import LinuxCoding.FileCopy.Segments
import LinuxCoding.ClientServer.Session
import LinuxCoding.Dgram.History
import LinuxCoding.ServerPool.Scanning
import LinuxCoding.Slicer.Slice
import LinuxCoding.Relay.Contract
import LinuxCoding.Mytbf.Overflow
import LinuxCoding.Mytbf.Sleepers
import LinuxCoding.Mytbf.Cat
import LinuxCoding.Primes.Search
import LinuxCoding.ClientServer.Server
import LinuxCoding.DirStat.Agree
import LinuxCoding.FileCopy.Sending
import LinuxCoding.FileCopy.Bounds
import LinuxCoding.Slicer.Lossless
import LinuxCoding.Slicer.Digest
import LinuxCoding.Relay.Flags
import LinuxCoding.Relay.Discipline
import LinuxCoding.Relay.Regular
import LinuxCoding.Mysem.Semaphore
import LinuxCoding.PrimePool.Progress
import LinuxCoding.Primes.Correct
import LinuxCoding.Primes.Counter
import LinuxCoding.DirStat.Handles
import LinuxCoding.TextStat.Partition
import LinuxCoding.TextStat.Words
import LinuxCoding.Shell.Lines
import LinuxCoding.Copying.Blocks
import LinuxCoding.Copying.Chars
import LinuxCoding.Tickets.Sale
import LinuxCoding.DiskUsage.Names
import LinuxCoding.SemProdCons.Progress
import LinuxCoding.AbcdRace.Printers
import LinuxCoding.AddRace.Threads
import LinuxCoding.AddRace.Processes
import LinuxCoding.SpinLock.Batches
import LinuxCoding.MyPipe.Amounts
import LinuxCoding.ProdCons.Parking
import LinuxCoding.ProdCons.Queue
import LinuxCoding.ServerPool.Notify
import LinuxCoding.Relay.Flow
import LinuxCoding.Counter.Unlocked
import LinuxCoding.Counter.Semaphore
import LinuxCoding.PrimePool.Busy
import LinuxCoding.AddRace.Ranges
import LinuxCoding.Masking.Lines
import LinuxCoding.Primes.Farm
import LinuxCoding.Copying.Paced
import LinuxCoding.TaskPool.Quiet
