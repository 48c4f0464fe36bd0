import RHKernel.Memory.Heap.Runs
import RHKernel.Memory.Pmm.Counts
import RHKernel.File.Vfs.Tree
import RHKernel.File.Vfs.NegCache
import RHKernel.File.Vfs.Split
import RHKernel.Smp.Scheduler.FaultReturn
import RHKernel.Smp.Scheduler.Aging
import RHKernel.Smp.Scheduler.Tree
import RHKernel.File.BlockCache.Tasks
import RHKernel.File.Tmpfs.Runs
import RHKernel.File.Ext2.Directory
import RHKernel.File.Exfat.Boot
import RHKernel.File.Exfat.Create
import RHKernel.File.Ext2.BmapLaws
import RHKernel.File.Vfat.Bytes
import RHKernel.File.Vfat.Finds
import RHKernel.Memory.Pmm.DirectMap
import RHKernel.Memory.VirtualRange.Runs
import RHKernel.Memory.Pmm.Search
import RHKernel.Syscall.Mmap
import RHKernel.Syscall.Seek
import RHKernel.Drivers.VirtioBlk
import RHKernel.Libc.Strtol
