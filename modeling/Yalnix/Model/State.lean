import Yalnix.Library.Table
import Yalnix.Model.Hardware

/-!
# The state of the kernel

`Kernel` holds the globals of `kernel.h` together with the parts of the machine
that the kernel works on. A `pcb_t *` is a pid. The fields of `struct pcb` are
kept in three records indexed by pid, by what uses them: `Pcb` is what the
scheduler saves and restores, `Family` the links to parent and children, and
`Space` the page tables. Lists of `list.h` are read as the sequences of their
`len` elements.

A kernel stack is known by where it will continue: `KernelContext` has one
constructor for each place where a process can be switched out, with the local
variables that the code after it reads.

What the environment decides is given with each step: `Malloc` answers a call
of `malloc`, and `World` holds the rest. Fields marked as history are written
by no source line and read by none of the definitions that model one.
-/

namespace Yalnix

/-! ## The answers of the environment -/

/-- One call of `malloc`: the addresses it passes to `SetKernelBrk` (an address
is below 2 GiB, so it is the same number as an `int`), whether it returns a
block, the address of the block, and what the block holds. -/
structure Malloc where
  ok : Bool := true
  grow : List (BitVec 31) := []
  addr : ℕ := 0
  fill : PageTable := fun _ => {}

instance : Inhabited Malloc := ⟨{}⟩

/-- An executable as `LoadInfo` reports it, with what reading the text and data
segments from its file yields. -/
structure Exe where
  tVaddr : Word
  tNpg : Word
  idVaddr : Word
  idNpg : Word
  udNpg : Word
  idEnd : Word
  udEnd : Word
  entry : Word
  text : List Byte
  data : List Byte

/-- `struct dead_info`. -/
structure DeadInfo where
  ppid : Pid := 0
  pid : Pid := 0
  status : Word := 0
  deriving DecidableEq, Inhabited

/-- What else the environment decides in a step: the file that `open` finds (if
it is in Yalnix format), the line that `TtyReceive` delivers, what a read of a
freed record of `dead_list`, at each position, yields, and the pids that the walk
of `sys_Exit` over `children` reads behind the last child. The link of the last
node is what `malloc` left in the head of the list, so there are such nodes
unless it is `NULL`; a walk that meets no `NULL` is no step. -/
structure World where
  file : Option Exe := none
  line : List Byte := []
  staleDead : ℕ → DeadInfo := fun _ => {}
  strays : List Pid := []

instance : Inhabited World := ⟨{}⟩

/-! ## Memory -/

/-- The frames, the page table of region 0 and the kernel heap. `mallocs` are
the answers that the calls of `malloc` still to come in this step get; when they
are used up, `malloc` succeeds. `refused` is history: how often `grab_a_frame`
returned 0. -/
structure Mem where
  freeFrames : List ℕ
  krnlPageTable : PageTable
  kernelBrk : Word
  vmemEnabled : Bool
  initialKs : PageTable
  mallocs : List Malloc := []
  refused : ℕ := 0

/-! ## Processes -/

inductive ProcState where
  | running | ready | waiting | blockedW | blockedR | delay | terminated
  deriving DecidableEq

/-- Where a process that is not running user code will continue in the kernel.

* `kernelStart`: after `KernelContextSwitch (save_initial_kernel, ..)`;
* `preempted`: in `do_scheduler`, called by `trap_clock_hdl`;
* the others: after the `normal_schedule` of a kernel call. `ttyBusy` is the
  inner loop of `sys_TtyWrite` and `ttySent` the outer one. `acquire` has the
  cvar that the lock is re-acquired for when `sys_CvarWait` made the call. -/
inductive KernelContext where
  | kernelStart
  | preempted
  | wait (statusPtr : Word) (i : ℕ)
  | delay
  | ttyRead (ttyId : Int)
  | ttyBusy (ttyId remainBytes : Int)
  | ttySent (ttyId remainBytes : Int)
  | pipeRead (p : ℕ) (pipeId : Int) (buf : Word) (len : Int) (exist : Bool)
  | acquire (via : Option Int) (l : ℕ) (lockId : Int) (exist : Bool)
  | cvarWait (c : ℕ) (cvarId lockId : Int)
  | semWait
  deriving DecidableEq

structure Pcb where
  state : ProcState := .ready
  uctxt : UserContext := {}
  kctxt : KernelContext := .kernelStart
  ttyId : Int := 0
  buf : Word := 0
  len : Int := 0

instance : Inhabited Pcb := ⟨{}⟩

structure Family where
  ppid : Pid := -1
  children : List Pid := []
  deriving DecidableEq, Inhabited

structure Space where
  uPageTable : PageTable := fun _ => {}
  kStackPt : PageTable := fun _ => {}
  nextHeapPn : Int := 0
  nextStackPn : Int := 0

instance : Inhabited Space := ⟨{}⟩

/-! ## What processes wait for -/

/-- `struct sleep_info`. -/
structure SleepInfo where
  ticksLeft : Int
  pcb : Pid
  deriving DecidableEq

/-- `struct pipe_info`; the block of `pipe_buffer` is its bytes. -/
structure PipeInfo where
  pipeid : Int
  curLen : Int
  pipeBuffer : ℕ → Byte
  pipeWaitList : List Pid

instance : Inhabited PipeInfo := ⟨⟨0, 0, fun _ => 0, []⟩⟩

/-- `struct lock_info`. -/
structure LockInfo where
  lockid : Int
  locked : Bool
  pid : Pid
  lockWaitList : List Pid
  deriving DecidableEq, Inhabited

/-- `struct cvar_info`. -/
structure CvarInfo where
  cvarid : Int
  cvarWaitList : List Pid
  deriving DecidableEq, Inhabited

/-- `struct semaphore`. -/
structure Semaphore where
  id : Int
  count : Int
  waiting : List Pid
  deriving DecidableEq, Inhabited

/-- The `type` of a `reclaim_info`. -/
inductive Kind where
  | pipe | lock | cvar
  deriving DecidableEq

/-- `struct reclaim_info`. -/
structure ReclaimInfo where
  id : Int
  type : Kind
  deriving DecidableEq

/-! ## The kernel -/

/-- The kernel and the machine below it. A record of `deadList` that has been
freed while still in the list is `none`. `uContext` is the context that the trap
handler was given (`*u_context`), and the registers of the active process while
`userMode` holds. History: `live`, the processes that have been given an entry of
`pcb_table` and have not exited; `fellThrough`, how often `normal_schedule` found
`ready_queue` empty; `readied`, the processes that have been put into `ready_queue`;
and `dispatched`, those that `context_switch` has made active. -/
structure Kernel where
  mem : Mem
  pcb : Pid → Pcb
  family : Pid → Family
  space : Pid → Space
  nextPid : Int
  nextSem : Int
  live : List Pid
  activeProc : Option Pid
  readyQueue : List Pid
  sleepList : List SleepInfo
  waitList : List Pid
  ioList : List Pid
  deadList : List (Option DeadInfo)
  pipes : Table PipeInfo
  locks : Table LockInfo
  cvars : Table CvarInfo
  sems : Table Semaphore
  reclaimList : List ReclaimInfo
  receive : Int → ℕ → Byte
  stringLen : ℕ
  busyTerminal : Int → Bool
  transmitted : List (Int × List Byte)
  uContext : UserContext
  ptbr1 : Option Pid
  userMode : Bool
  phys : ℕ → ℕ → Byte
  world : World
  fellThrough : ℕ
  readied : List Pid
  dispatched : List Pid

/-- `p_idle->pid`. -/
def idle : Pid := 1

/-- The `NULL` of a `pcb_t *`. -/
def nullProc : Pid := -1

/-- `active_proc->pcb` is written. -/
def Kernel.setPcb (σ : Kernel) (p : Pid) (x : Pcb) : Kernel :=
  { σ with pcb := Function.update σ.pcb p x }

def Kernel.setFamily (σ : Kernel) (p : Pid) (x : Family) : Kernel :=
  { σ with family := Function.update σ.family p x }

def Kernel.setSpace (σ : Kernel) (p : Pid) (x : Space) : Kernel :=
  { σ with space := Function.update σ.space p x }

/-- Where process `p` is: in user code, or at a place in the kernel. -/
def Kernel.inUser (σ : Kernel) (p : Pid) : Prop := σ.activeProc = some p ∧ σ.userMode = true

instance (σ : Kernel) (p : Pid) : Decidable (σ.inUser p) := inferInstanceAs (Decidable (_ ∧ _))

end Yalnix
