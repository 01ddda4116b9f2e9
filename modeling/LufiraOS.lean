import LufiraOS.Mkfs.Agree
import LufiraOS.Mkfs.Counters
import LufiraOS.Vfs.Isolation
import LufiraOS.Vfs.Stream
import LufiraOS.Fat.Refines
import LufiraOS.Heap.Runs
import LufiraOS.Ipc.Service
import LufiraOS.Mmap.Runs
import LufiraOS.Pages.BootMap
import LufiraOS.Pages.Runs
import LufiraOS.Process.Signals
import LufiraOS.Process.States
import LufiraOS.Nvme.Completion
import LufiraOS.Ramfs.Sound
import LufiraOS.Users.RoundTrip
import LufiraOS.Vfs.Routing
import LufiraOS.Xhci.Ring
import LufiraOS.Elf.Load
import LufiraOS.Exfat.Entries
import LufiraOS.Ext2.Removal
import LufiraOS.Driver.Allocation
import LufiraOS.Driver.Transfer
import LufiraOS.Syscall.Output
import LufiraOS.Printf
import LufiraOS.Vfs.Failures
import LufiraOS.Vfs.Seek
import LufiraOS.Process.Choice
import LufiraOS.Process.Stacks
import LufiraOS.Mmap.Protection
import LufiraOS.Console.Blit
import LufiraOS.Xhci.Storage
import LufiraOS.Memory
import LufiraOS.Heap.Libc
