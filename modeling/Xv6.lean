import Xv6.Lib.Run
import Xv6.Log.Durability
import Xv6.Log.Reservation
import Xv6.Log.Coherence
import Xv6.Log.Waiters
import Xv6.Log.BufList
import Xv6.Fs.Itable
import Xv6.Fs.Files
import Xv6.Fs.Ownership
import Xv6.Fs.Path
import Xv6.Fs.DirMap
import Xv6.Fs.NoHoles
import Xv6.Fs.References
import Xv6.Fs.Cached
import Xv6.Fs.UserRead
import Xv6.Fs.Exhaust
import Xv6.Mkfs.Image
import Xv6.Virtio.Requests
import Xv6.Proc.Family
import Xv6.Proc.Zombie
import Xv6.Proc.Kill
import Xv6.Proc.Clock
import Xv6.Console.Readers
import Xv6.Sh.Grammar
import Xv6.User.Ulib
import Xv6.User.Decimal
import Xv6.User.Grep
import Xv6.Vm.Processes
import Xv6.Vm.CopyIn
import Xv6.Vm.FiniteMap
import Xv6.Vm.PipeRead
