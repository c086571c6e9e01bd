import Xv6Arm.Log.Crash
import Xv6Arm.Log.Transactions
import Xv6Arm.Vm.Confine
import Xv6Arm.Vm.Unmap
import Xv6Arm.Vm.LinearMap
import Xv6Arm.Smp.Scheduling
import Xv6Arm.Smp.Reaping
import Xv6Arm.Smp.Slots
import Xv6Arm.Log.CommitBuffers
import Xv6Arm.Kernel.Tables
import Xv6Arm.Smp.Console
import Xv6Arm.Pipe.Runs
import Xv6Arm.Buffer.BioRuns
import Xv6Arm.Kernel.Alone
import Xv6Arm.Fs.Sound
import Xv6Arm.Console.Line
import Xv6Arm.Pipe.Delivery
import Xv6Arm.Fs.ReadBounds
import Xv6Arm.Vm.ExactCopy
import Xv6Arm.Proc.Grow
import Xv6Arm.Fs.Resolve
import Xv6Arm.Libc.Memmove
import Xv6Arm.Libc.Printf
import Xv6Arm.Gic.Distributor
import Xv6Arm.User.Match
import Xv6Arm.User.Grep
import Xv6Arm.User.Malloc
import Xv6Arm.Vm.WalkMap
import Xv6Arm.Virtio.Progress
import Xv6Arm.Virtio.BlockDevice
