import Ish.Memory.Threads
import Ish.Memory.Protection
import Ish.Lock.Wait
import Ish.Fakefs.Race
import Ish.Fakefs.Inodes
import Ish.Fakefs.Rebuild
import Ish.Fs.Again
import Ish.Fs.Chroot
import Ish.Signal.Nested
import Ish.Process.Reaping
import Ish.Futex.Counts
import Ish.Futex.Delivery
import Ish.Poll.Epoll
import Ish.Poll.Select
import Ish.Float80.AddRight
import Ish.Float80.Supported
import Ish.Memory.User
import Ish.Fs.Access
import Ish.Cpu.Flags
import Ish.Locking.Calls
import Ish.Locking.TimerRuns
import Ish.Locking.Ttys
import Ish.Process.Ids
import Ish.Process.Pids
import Ish.Process.Vfork
import Ish.Sock.Rights
import Ish.Fs.Mounts
import Ish.Float80.Symmetry
import Ish.Signal.TempMask
import Ish.Float80.Control
import Ish.Poll.Waiters
import Ish.Float80.Round
import Ish.Tty.Sleepers
import Ish.Fs.Tmpfs
import Ish.Poll.Eventfd
