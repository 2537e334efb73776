import Yalnix.Library.Run
import Yalnix.Library.Assign
import Yalnix.Library.Chain
import Yalnix.Library.Cover
import Yalnix.Library.Ledger
import Yalnix.Library.Table
import Yalnix.Library.Overlay
import Yalnix.Library.Wrap
import Yalnix.Model.Hardware
import Yalnix.Model.State
import Yalnix.Model.Memory
import Yalnix.Model.Scheduler
import Yalnix.Model.LinkedList
import Yalnix.Model.LoadProgram
import Yalnix.Model.PipeBuffer
import Yalnix.Sync.BufferDiscipline
import Yalnix.Model.Process
import Yalnix.Model.Terminal
import Yalnix.Model.Objects
import Yalnix.Model.Machine
import Yalnix.Footprint.View
import Yalnix.Footprint.Primitive
import Yalnix.Footprint.Call
import Yalnix.Footprint.Suspend
import Yalnix.Footprint.Step
import Yalnix.Footprint.Park
import Yalnix.Allocation
import Yalnix.Footprint.Boot
import Yalnix.Runs
import Yalnix.Memory.ForkExit
import Yalnix.Memory.Frames
import Yalnix.Memory.Brk
import Yalnix.Memory.Fault
import Yalnix.Lists.Sequence
import Yalnix.Lists.Refine
import Yalnix.Lists.Delete
import Yalnix.Lists.Walk
import Yalnix.Memory.Access
import Yalnix.Memory.ArgBlock
import Yalnix.Memory.ArgSize
import Yalnix.Memory.KernelHeap
import Yalnix.Memory.Partition
import Yalnix.Memory.Fork
import Yalnix.Memory.Segments
import Yalnix.Memory.Space
import Yalnix.Memory.Layout
import Yalnix.Memory.Loaded
import Yalnix.Memory.Owned
import Yalnix.Memory.Isolation
import Yalnix.Memory.Protection
import Yalnix.Memory.Account
import Yalnix.Memory.Stacks
import Yalnix.Memory.Conserved
import Yalnix.Memory.Image
import Yalnix.Memory.Load
import Yalnix.Memory.Exec
import Yalnix.Placement.Queue
import Yalnix.Placement.Call
import Yalnix.Placement.Lifecycle
import Yalnix.Placement.Known
import Yalnix.Placement.Invariant
import Yalnix.Placement.Delay
import Yalnix.Placement.Context
import Yalnix.Placement.Dispatch
import Yalnix.Placement.Fairness
import Yalnix.Sync.Lock
import Yalnix.Sync.Release
import Yalnix.Sync.Cvar
import Yalnix.Sync.Holder
import Yalnix.Sync.Mutex
import Yalnix.Sync.Monitor
import Yalnix.Sync.Creation
import Yalnix.Sync.CvarError
import Yalnix.Sync.Semaphore
import Yalnix.Sync.SemLookup
import Yalnix.Sync.Pipe
import Yalnix.Sync.Stream
import Yalnix.Sync.Reader
import Yalnix.Tty.Handler
import Yalnix.Tty.Line
import Yalnix.Tty.Writer
import Yalnix.Tty.Wait
import Yalnix.Tty.Read
import Yalnix.Tty.Bounds
import Yalnix.Tty.Delivery
import Yalnix.Tty.Acknowledge
import Yalnix.Tty.Wake
import Yalnix.Tty.Chunks
import Yalnix.Tree.Status
import Yalnix.Tree.Wait
import Yalnix.Tree.Reaping
import Yalnix.Tree.Waiting
import Yalnix.Tree.Links
import Yalnix.Tree.ProcessTable
import Yalnix.Placement.Response
import Yalnix.Memory.Private
import Yalnix.Placement.Registers
import Yalnix.Sync.Reclaim
import Yalnix.Sync.Identity
