import FastIpc.User.Descriptors
import FastIpc.User.Stream
import FastIpc.User.Creation
import FastIpc.Pipes.Wakeup
import FastIpc.Procs.Family
import FastIpc.Virtio.Requests
import FastIpc.Log.Operations
import FastIpc.Kernel.PageAllocator
import FastIpc.Kernel.PageMap
import FastIpc.Pipes.Accounting
import FastIpc.Kernel.Resizing
import FastIpc.Kernel.Shape
import FastIpc.Kernel.Placement
import FastIpc.Kernel.Cleanup
import FastIpc.User.Leftovers
import FastIpc.Files.Pages
import FastIpc.Kernel.Programs
import FastIpc.Fs.SharedOffset
import FastIpc.Fs.ShortWrite
import FastIpc.Fs.MkfsReading
import FastIpc.Files.Forking
import FastIpc.Heap.Growth
import FastIpc.Console.Lines
import FastIpc.Buffers.Refinement
import FastIpc.Fs.Directory
import FastIpc.Fs.InodeCache
import FastIpc.Fs.Paths
