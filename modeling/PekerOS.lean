import PekerOS.Lib.Table
import PekerOS.Lib.Bitmap
import PekerOS.Lib.Ownership
import PekerOS.Lib.Run
import PekerOS.Lib.Links
import PekerOS.Lib.RoundRobin
import PekerOS.Lib.Recent
import PekerOS.Lib.DoublyLinked
import PekerOS.Core.CString
import PekerOS.Core.Spinlock
import PekerOS.Fs.Vfs.Node
import PekerOS.Fs.Vfs.Path
import PekerOS.Fs.Vfs.Links
import PekerOS.Fs.Vfs.Mounts
import PekerOS.Fs.Vfs.Leaks
import PekerOS.Fs.Vfs.Frees
import PekerOS.Fs.Vfs.Strings
import PekerOS.Fs.Vfs.Components
import PekerOS.Ui.Shell
import PekerOS.Ui.WorkingDir
import PekerOS.Ui.FileCommands
import PekerOS.Ui.LineEditor
import PekerOS.Ui.Windows
import PekerOS.Fs.Ext2.Ext2
import PekerOS.Fs.Ext2.Listing
import PekerOS.Fs.Ext2.Reading
import PekerOS.Fs.Ext2.Scans
import PekerOS.Fs.Ext2.Mount
import PekerOS.Fs.Pafs.Layout
import PekerOS.Fs.Pafs.State
import PekerOS.Fs.Pafs.Ops
import PekerOS.Fs.Pafs.Directory
import PekerOS.Fs.Pafs.Invariant
import PekerOS.Fs.Pafs.Format
import PekerOS.Fs.Pafs.Steps
import PekerOS.Fs.Pafs.Entries
import PekerOS.Fs.Pafs.Runs
import PekerOS.Fs.Pafs.Namespace
import PekerOS.Fs.Pafs.Names
import PekerOS.Fs.Pafs.Room
import PekerOS.Fs.Pafs.NewFile
import PekerOS.Fs.Pafs.Deletion
import PekerOS.Fs.Pafs.WriteThrough
import PekerOS.Fs.Pafs.Locking
import PekerOS.Fs.Pafs.Files
import PekerOS.Fs.Pafs.Creation
import PekerOS.Fs.Pafs.RoundTrip
import PekerOS.Fs.Pafs.FileRuns
import PekerOS.Fs.Pafs.Interrupted
import PekerOS.Proc.Syscall
import PekerOS.Proc.Streams
import PekerOS.Proc.Writes
import PekerOS.Proc.Task
import PekerOS.Proc.Scheduling
import PekerOS.Lib.Segments
import PekerOS.Mm.Kheap
import PekerOS.Mm.HeapSafety
import PekerOS.Mm.HeapRuns
import PekerOS.Mm.HeapSpec
import PekerOS.Mm.HeapMisuse
import PekerOS.Mm.Frames
import PekerOS.Mm.BootMap
import PekerOS.Mm.PagingRuns
import PekerOS.Mm.Windows
import PekerOS.Mm.PageMap
import PekerOS.Mm.HigherHalf
import PekerOS.Mm.UserPages
import PekerOS.Mm.Sbrk
import PekerOS.Mm.Bytes
import PekerOS.Drivers.Ata
import PekerOS.Drivers.Keyboard
import PekerOS.Drivers.Rtl8139
import PekerOS.Drivers.Rtl8139Interrupts
import PekerOS.Drivers.E1000
import PekerOS.Drivers.E1000Windows
import PekerOS.Lib.RingBuffer
import PekerOS.Lib.Checksum
import PekerOS.Net.Tcp
import PekerOS.Net.Socket
import PekerOS.Net.Frame
import PekerOS.Net.Slots
import PekerOS.Proc.Descriptors
import PekerOS.Proc.Aliasing
import PekerOS.Proc.SocketLeaks
import PekerOS.Proc.Validation
import PekerOS.Proc.Elf
import PekerOS.Proc.ElfImage
import PekerOS.Proc.ElfReleases
import PekerOS.Net.View
import PekerOS.Net.Input
import PekerOS.Net.Lifetime
import PekerOS.Net.Buffers
import PekerOS.Net.Datagrams
import PekerOS.Net.Wakeups
import PekerOS.Net.Calls
import PekerOS.Net.Ports
import PekerOS.Net.Segments
import PekerOS.Net.Checksums
import PekerOS.Net.Parsing
import PekerOS.Net.Delivery
import PekerOS.Net.Echo
import PekerOS.Net.Sending
import PekerOS.Net.EndOfStream
import PekerOS.Net.Isolation
import PekerOS.Fs.Pafs.HostTool
import PekerOS.Fs.Pafs.HostImages
import PekerOS.Fs.Pafs.HostAgree
import PekerOS.Proc.OpenCreate
import PekerOS.Lib.Screen
import PekerOS.Core.Terminal
import PekerOS.Drivers.Timer
import PekerOS.Proc.Context
import PekerOS.Net.Peers
import PekerOS.Drivers.Vbe
import PekerOS.Ui.Render
import PekerOS.Proc.Fairness
