import Xv6Containers.Block.Capacity
import Xv6Containers.Console.Ring
import Xv6Containers.Container.Frame
import Xv6Containers.Container.MemoryUsage
import Xv6Containers.Container.RootProcess
import Xv6Containers.Container.Shares
import Xv6Containers.Container.StartOutcome
import Xv6Containers.Fs.ParentLookup
import Xv6Containers.Fs.SharedWrites
import Xv6Containers.Fs.Volume
import Xv6Containers.Inode.Reclaim
import Xv6Containers.Ipc.Pipe
import Xv6Containers.Log.CrashAtomicity
import Xv6Containers.Process.Clock
import Xv6Containers.Process.Generator
import Xv6Containers.Process.Pausing
import Xv6Containers.Process.SleepLock
import Xv6Containers.Process.SpinLocks
import Xv6Containers.Process.Waiting
import Xv6Containers.Shell.Words
import Xv6Containers.Syscall.ContainerCalls
import Xv6Containers.User.Grep
import Xv6Containers.Vm.ExecArguments
import Xv6Containers.Vm.Fork
import Xv6Containers.Vm.LostPage
