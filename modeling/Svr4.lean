import Svr4.Acomp.Fold
import Svr4.Semaphore.Values
import Svr4.Semaphore.Fetches
import Svr4.RecordLock.Exhaustion
import Svr4.RecordLock.Termination
import Svr4.RecordLock.Ranges
import Svr4.Kmem.LostWakeups
import Svr4.Streams.Insert
import Svr4.Messages.Trim
import Svr4.Messages.Guarantees
import Svr4.Ip.RoundTrip
import Svr4.Bufcall.Runs
import Svr4.Callout.Clock
import Svr4.Mux.Links
import Svr4.Dnlc.Runs
import Svr4.Tcp.Runs
import Svr4.Segvn.Reservation
import Svr4.Segvn.Merging
import Svr4.S5.InodeRuns
import Svr4.S5.BmapFailures
import Svr4.Space.Holes
import Svr4.Msgq.Guarantees
import Svr4.Xdr.Storage
import Svr4.Xpr.Acceptance
import Svr4.Elf.Dependable
import Svr4.Optim.Ldanal
import Svr4.Pages.Runs
import Svr4.Procs.Runs
import Svr4.Ufs.Hashalloc
import Svr4.Ip.Cksum
import Svr4.Tcp.Maxseg
import Svr4.Ip.OptionBounds
import Svr4.Calendar.Localtime
import Svr4.Collate.Agreement
import Svr4.Libc.Drand48
import Svr4.Libc.Hsearch
import Svr4.Libc.Strtol
import Svr4.Libc.Tsearch
import Svr4.PageLock.Accounting
import Svr4.Streams.Scheduling
import Svr4.Files.References
import Svr4.Elf.Paging
