import YohdaOS.Ahci
import YohdaOS.Ahci.Disk
import YohdaOS.Ahci.Rebase
import YohdaOS.Ahci.Slots
import YohdaOS.Ahci.Table
import YohdaOS.Bitmap
import YohdaOS.Boot.Chs
import YohdaOS.Boot.Disk
import YohdaOS.Boot.Heap
import YohdaOS.Boot.LongMode
import YohdaOS.Boot.Paging
import YohdaOS.Bst
import YohdaOS.Bst.Nodes
import YohdaOS.Buddy.Climb
import YohdaOS.Buddy.Core
import YohdaOS.Buddy.Exhausted
import YohdaOS.Buddy.Filter
import YohdaOS.Buddy.Frame
import YohdaOS.Buddy.Init
import YohdaOS.Buddy.InitSpec
import YohdaOS.Buddy.Layout
import YohdaOS.Buddy.Lazy
import YohdaOS.Buddy.Marking
import YohdaOS.Buddy.Reach
import YohdaOS.Buddy.Regions
import YohdaOS.Buddy.Run
import YohdaOS.Buddy.Spec
import YohdaOS.Buddy.Start
import YohdaOS.Chunks
import YohdaOS.Deque
import YohdaOS.Fat.Chain
import YohdaOS.Fat.Checksum
import YohdaOS.Fat.Codec
import YohdaOS.Fat.Core
import YohdaOS.Fat.Create
import YohdaOS.Fat.Drive
import YohdaOS.Fat.Fresh
import YohdaOS.Fat.Geometry
import YohdaOS.Fat.Mount
import YohdaOS.Fat.Names
import YohdaOS.Fat.Region
import YohdaOS.Fat.Resync
import YohdaOS.Fat.Segments
import YohdaOS.Fat.Sync
import YohdaOS.Fat.Tree
import YohdaOS.Fat.Walk
import YohdaOS.Gdt
import YohdaOS.Io.Bounds
import YohdaOS.Io.Console
import YohdaOS.Io.Format
import YohdaOS.Io.Pieces
import YohdaOS.Io.Printf
import YohdaOS.Io.Stdlib
import YohdaOS.Irq.Arguments
import YohdaOS.Irq.Idt
import YohdaOS.Irq.Lock
import YohdaOS.Irq.Nesting
import YohdaOS.Irq.Pic
import YohdaOS.Irq.Returns
import YohdaOS.Irq.Saved
import YohdaOS.Irq.Service
import YohdaOS.Irq.Stubs
import YohdaOS.Lazy.Free
import YohdaOS.Lazy.Lists
import YohdaOS.Lazy.Order0
import YohdaOS.Lazy.Queue
import YohdaOS.Lazy.Refine
import YohdaOS.Lazy.Run
import YohdaOS.Lazy.Steps
import YohdaOS.Lazy.World
import YohdaOS.Lib.Blocks
import YohdaOS.Lib.Chain
import YohdaOS.Lib.Counting
import YohdaOS.Lib.Drive
import YohdaOS.Lib.Fields
import YohdaOS.Lib.Fifo
import YohdaOS.Lib.Lines
import YohdaOS.Lib.Memory
import YohdaOS.Lib.Numeral
import YohdaOS.Lib.Objects
import YohdaOS.Lib.Paging
import YohdaOS.Lib.Priority
import YohdaOS.Lib.Recycle
import YohdaOS.Lib.Ring
import YohdaOS.Lib.Runs
import YohdaOS.Lib.Threads
import YohdaOS.Lib.Turns
import YohdaOS.Lib.Words
import YohdaOS.Links
import YohdaOS.Machine
import YohdaOS.Math
import YohdaOS.Mmi.Coding
import YohdaOS.Mmi.Core
import YohdaOS.Mmi.InitSpec
import YohdaOS.Mmi.Layout
import YohdaOS.Mmi.Run
import YohdaOS.Mmi.Serve
import YohdaOS.Mmi.Spec
import YohdaOS.Mmi.Store
import YohdaOS.Mmi.Wide
import YohdaOS.Mp.Core
import YohdaOS.Mp.Detect
import YohdaOS.Mp.Walk
import YohdaOS.Multiboot.Bounds
import YohdaOS.Multiboot.Handover
import YohdaOS.Multiboot.Parse
import YohdaOS.Pool.Core
import YohdaOS.Pool.Exhausted
import YohdaOS.Pool.InitSpec
import YohdaOS.Pool.Layout
import YohdaOS.Pool.Partition
import YohdaOS.Pool.Run
import YohdaOS.Pool.Spec
import YohdaOS.Rings
import YohdaOS.Sched.Core
import YohdaOS.Sched.Exit
import YohdaOS.Sched.Isolation
import YohdaOS.Sched.Member
import YohdaOS.Sched.Reuse
import YohdaOS.Sched.Robin
import YohdaOS.Sched.Run
import YohdaOS.Sched.Spec
import YohdaOS.Stack
import YohdaOS.State
import YohdaOS.Strtok
import YohdaOS.Switch.Core
import YohdaOS.Switch.Run
import YohdaOS.Switch.Threads
import YohdaOS.Text
import YohdaOS.Vga
import YohdaOS.Vga.Bounds
import YohdaOS.Vga.Page
