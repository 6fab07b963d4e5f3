import Olux.Fd.Theorems
import Olux.Sendmsg.Theorems
import Olux.Vm.Protect
import Olux.Cred.Theorems
import Olux.Sched.Theorems
import Olux.Vfs.Authority
import Olux.Exec.Theorems
import Olux.Fat.Calendar
import Olux.Bcache.Isolation
import Olux.Kmalloc.Theorems
import Olux.Kmalloc.Buddy
import Olux.Userfs.Channel
import Olux.Fat.Count.Theorems
import Olux.Fat.Move
import Olux.Tmpfs.Short
import Olux.Sendfile
import Olux.Getdents.Seek
import Olux.Pipe.Fifo
import Olux.Poll
import Olux.Dcache.Theorems
import Olux.Runqueue.Overlap
import Olux.Channel.Delivery
import Olux.Futex.Requeue
import Olux.Unix.Rights
import Olux.Unix.Delivery
import Olux.Unix.Lifetime.Theorems
import Olux.Pipe.Stream
import Olux.Pipe.Vectored
import Olux.Blkdev
import Olux.Fat.Open
import Olux.Futex.Timeout
import Olux.TcpSend
import Olux.Vblk
import Olux.UsbStorage
import Olux.Ext4.Dir
import Olux.Pstore
import Olux.Ptmx
import Olux.Tty
import Olux.Signal.Frame
import Olux.Wait4
import Olux.Time
import Olux.Vsprintf
import Olux.Initramfs
