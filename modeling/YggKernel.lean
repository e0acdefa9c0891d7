import YggKernel.Phys.LiveFrames
import YggKernel.Phys.MemoryMap
import YggKernel.Phys.Pages
import YggKernel.Pool.Safety
import YggKernel.Heap.Safety
import YggKernel.Heap.Realloc
import YggKernel.Heap.Reserving
import YggKernel.Task.Handlers
import YggKernel.Task.Fairness
import YggKernel.Task.Sleeping
import YggKernel.Print.Truncation
import YggKernel.Files.Wakeups
import YggKernel.Files.Transfers
import YggKernel.Paging.Accounting
import YggKernel.Net.Transmit
import YggKernel.Net.Link
import YggKernel.Net.Config
import YggKernel.Vfs.Mounts
import YggKernel.Vfs.Bounds
import YggKernel.Vfs.Traces
import YggKernel.Dev.Directories
import YggKernel.Hw.Hpet
import YggKernel.Net.Inet
import YggKernel.Vfs.Gets
import YggKernel.Paging.Strings
import YggKernel.Hw.Console
import YggKernel.Net.Receive
import YggKernel.Hw.Acpi
import YggKernel.Print.Positions
import YggKernel.Heap.Conserving
import YggKernel.Syscall.Writing
import YggKernel.Syscall.Pointers
import YggKernel.Paging.Recycling
import YggKernel.Paging.Views
import YggKernel.Paging.RoundTrip
