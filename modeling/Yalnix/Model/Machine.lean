import Yalnix.Library.Run
import Yalnix.Model.Objects
import Yalnix.Model.Terminal

/-!
# Traps, steps and the boot

`step` is the machine. In user mode the active process may write its own memory
or trap; the handler of the trap runs until it returns to user code or switches
to another process. After a switch the only step is `resume`, in which the new
active process continues where it had been switched out. A run of the machine
starts in the state that `kernelStart` leaves.
-/

namespace Yalnix

namespace Kernel

/-! ## Trap handlers -/

/-- The kernel goes back to user code. -/
def returnUser (σ : Kernel) : Kernel := { σ with userMode := true }

/-- What `trap_kernel_hdl` and the handlers that call `sys_Exit` do with the
result of a kernel call. -/
def finish (r : Outcome × Kernel) : Kernel :=
  match r.1 with
  | .ret v => returnUser { r.2 with uContext := r.2.uContext.setRet v }
  | .switched => r.2
  | .restarted => r.2

/-- The calls that `trap_kernel_hdl` makes. -/
def sysCall (σ : Kernel) (p : Pid) : Call → Option (Outcome × Kernel)
  | .brk => σ.sysBrk p
  | .fork => σ.sysFork p
  | .exec => σ.sysExec p
  | .exit => σ.sysExit p (σ.reg 0)
  | .wait => σ.sysWait p
  | .delay => σ.sysDelay p
  | .getpid => σ.sysGetpid p
  | .ttyRead => σ.sysTtyRead p
  | .ttyWrite => σ.sysTtyWrite p
  | .pipeInit => σ.sysPipeInit p
  | .pipeRead => σ.sysPipeRead p
  | .pipeWrite => σ.sysPipeWrite p
  | .lockInit => σ.sysLockInit p
  | .lockAcquire => σ.sysAcquire p none 0
  | .lockRelease => let r := σ.sysRelease p (σ.reg 0).toInt; some (.ret r.1, r.2)
  | .cvarInit => σ.sysCvarInit p
  | .cvarSignal => σ.sysCvarSignal p
  | .cvarBroadcast => σ.sysCvarBroadcast p
  | .cvarWait => σ.sysCvarWait p
  | .reclaim => σ.sysReclaim p
  | .custom0 => σ.sysCustom0 p
  | .custom1 => σ.sysCustom1 p
  | .custom2 => σ.sysCustom2 p

/-- `trap_kernel_hdl`. Its return value is not set for a code it does not know. -/
def trapKernelHdl (σ : Kernel) (p : Pid) : Option Kernel :=
  (Call.decode σ.uContext.code).bind fun c => (σ.sysCall p c).map finish

/-- `trap_clock_hdl`. -/
def trapClockHdl (σ : Kernel) : Option Kernel :=
  σ.updateSleepList.doScheduler.map fun r =>
    match r.1 with
    | .switched => r.2
    | .returned _ => r.2.returnUser

/-- `trap_illegal_hdl`, `trap_math_hdl` and `trap_undefined_hdl`. -/
def trapAbortHdl (σ : Kernel) (p : Pid) : Option Kernel := (σ.sysExit p abortStatus).map finish

/-- The page below the last one that the stack of `trap_memory_hdl` grows to. -/
def stackEnd (σ : Kernel) : Int :=
  pageNumber (downToPage σ.uContext.addr - vmem1Base) - 1

/-- The pages that `trap_memory_hdl` adds to the stack of `p`. -/
def stackPages (σ : Kernel) (p : Pid) : List Int :=
  pages (σ.space p).nextStackPn (-1) ((σ.space p).nextStackPn - σ.stackEnd).toNat

/-- The part of `trap_memory_hdl` that grows the stack of `p`. -/
def growUserStack (σ : Kernel) (p : Pid) : Option Kernel :=
  let x := σ.space p
  (growStack (σ.stackPages p) σ.mem x.uPageTable).map fun r =>
    { σ with
      mem := r.1
      space := Function.update σ.space p
        { x with uPageTable := r.2, nextStackPn := σ.stackEnd } }

/-- `trap_memory_hdl`. -/
def trapMemoryHdl (σ : Kernel) (p : Pid) : Option Kernel :=
  let x := σ.space p
  if σ.stackEnd ≤ x.nextStackPn ∧ σ.stackEnd > x.nextHeapPn then
    (σ.growUserStack p).map returnUser
  else σ.trapAbortHdl p

/-- The handler that `int_vector` names for a trap. The handlers of the clock and
the devices do not need an active process, and the others do. -/
def handler (σ : Kernel) : Int → Option Kernel
  | 0 => σ.activeProc.bind fun p => σ.trapKernelHdl p
  | 1 => σ.trapClockHdl
  | 2 => σ.activeProc.bind fun p => σ.trapAbortHdl p
  | 3 => σ.activeProc.bind fun p => σ.trapMemoryHdl p
  | 4 => σ.activeProc.bind fun p => σ.trapAbortHdl p
  | 5 => σ.trapTtyReceiveHdl.map returnUser
  | 6 => σ.trapTtyTransmitHdl.map returnUser
  | 7 => some σ.returnUser
  | v =>
      if 8 ≤ v ∧ v < 16 then σ.activeProc.bind fun p => σ.trapAbortHdl p else none

/-! ## Continuing after a switch -/

/-- The call that process `p` is in the middle of, from the place in the kernel
where `p` was switched out. -/
def resumeCall (σ : Kernel) (p : Pid) : KernelContext → Option (Outcome × Kernel)
  | .kernelStart => some (.restarted, σ.startUser p)
  | .preempted => some (.restarted, σ.returnUser)
  | .wait statusPtr i => σ.sysWaitResume p statusPtr i
  | .delay => some (.ret 0, σ)
  | .ttyRead ttyId => σ.sysTtyReadResume p ttyId
  | .ttyBusy ttyId remainBytes => σ.sysTtyWriteResume p ttyId remainBytes
  | .ttySent ttyId remainBytes => σ.sysTtyWriteResume p ttyId remainBytes
  | .pipeRead a pipeId buf len exist => σ.sysPipeReadResume p a pipeId buf len exist
  | .acquire via a lockId exist => σ.sysAcquireResume p via a lockId exist
  | .cvarWait _ cvarId lockId => σ.sysCvarWaitResume p cvarId lockId
  | .semWait => some (.ret 0, σ)

/-- The end of `context_switch`: `p` gets its user context and page table back. -/
def restore (σ : Kernel) (p : Pid) : Kernel :=
  { σ with uContext := (σ.pcb p).uctxt, ptbr1 := some p }

/-- What `p` does when it has been switched to. -/
def resume (σ : Kernel) (p : Pid) : Option Kernel :=
  ((σ.restore p).resumeCall p (σ.pcb p).kctxt).map finish

end Kernel

/-! ## Steps -/

inductive Event where
  | trap (u : UserContext)
  | resume
  | store (a : Word) (b : Byte)

/-- An event, with what the environment answers during its step. -/
structure Label where
  event : Event
  mallocs : List Malloc := []
  world : World := {}

/-- The trap that is taken. -/
def Label.vector (l : Label) : Option Int :=
  match l.event with
  | .trap u => some u.vector
  | _ => none

/-- The kernel call that is made. -/
def Label.call (l : Label) : Option Call :=
  match l.event with
  | .trap u => if u.vector = 0 then Call.decode u.code else none
  | _ => none

theorem Label.vector_of_call {l : Label} {c : Call} (h : l.call = some c) :
    l.vector = some 0 := by
  unfold Label.call at h
  unfold Label.vector
  split at h
  · split at h
    · simpa
    · exact absurd h (by simp)
  · exact absurd h (by simp)

namespace Kernel

/-- The kernel at the start of a step with label `l`. -/
def begin (σ : Kernel) (l : Label) : Kernel :=
  { σ with mem := { σ.mem with mallocs := l.mallocs }, world := l.world }

/-- The kernel when the trap `u` is taken. -/
def enter (σ : Kernel) (u : UserContext) : Kernel := { σ with uContext := u, userMode := false }

/-- A step of the machine. -/
def step (σ : Kernel) (l : Label) : Option Kernel :=
  match l.event with
  | .trap u => if σ.userMode then ((σ.begin l).enter u).handler u.vector else none
  | .resume =>
      if σ.userMode then none else σ.activeProc.bind fun p => (σ.begin l).resume p
  | .store a b => if σ.userMode then (σ.begin l).copyOut a [b] else none

end Kernel

/-! ## The boot -/

/-- What the machine is booted with: its memory, the extent of the kernel's data
(`SetKernelData`), the answers of `malloc` in `init_queues`, in
`gather_free_frames` and from `init_init` on, and the two programs with their
arguments. -/
structure Boot where
  totalFrames : ℕ
  dataStart : Word
  dataEnd : Word
  uctxt : UserContext := {}
  queueMallocs : List Malloc := []
  gatherMallocs : List Malloc := []
  procMallocs : List Malloc := []
  initFile : Option Exe := none
  idleFile : Option Exe := none
  args : List (List Byte) := []

/-- `init_queues`: the heads of the ten lists. -/
def initQueues : ℕ → Mem → Option Mem
  | 0, m => some m
  | n + 1, m => if m.malloc.1.ok then initQueues n m.malloc.2 else none

/-- A loop of `gather_free_frames`, down to the first frame that is not above
`bound`, and whether every frame could be put into the list. -/
def gatherLoop (bound : Mem → Int) : List Int → Mem → Bool × Mem
  | [], m => (true, m)
  | i :: is, m =>
      if i > bound m then
        let r := listInsert m.freeFrames (m.freeFrames.length + 1) i.toNat m
        if r.1 ≠ 0 then (false, r.2.2) else gatherLoop bound is { r.2.2 with freeFrames := r.2.1 }
      else (true, m)

/-- `VMEM_0_LIMIT >> PAGESHIFT`. -/
def vmem0Pages : Int := 128

/-- `KERNEL_STACK_BASE >> PAGESHIFT`. -/
def kernelStackPage : Int := 126

/-- `gather_free_frames`, once the head of the list is there. -/
def gatherFreeFrames (totalFrames : ℕ) (m : Mem) : Mem :=
  let top := gatherLoop (fun _ => vmem0Pages - 1)
    (pages (totalFrames - 1) (-1) totalFrames) m
  if top.1 then
    (gatherLoop (fun m => pageNumber (upToPage m.kernelBrk) - 1)
      (pages (kernelStackPage - 1) (-1) kernelStackPage.toNat) top.2).2
  else top.2

/-- The page table that `enable_vmem` sets up. -/
def bootPageTable (dataSegBase dataSegLimit kernelBrk : Word) : PageTable := fun i =>
  if kernelStackPage ≤ i ∧ i < vmem0Pages then ⟨true, protRead ||| protWrite, i.toNat⟩
  else if pageNumber dataSegLimit ≤ i ∧ i < pageNumber kernelBrk then
    ⟨true, protRead ||| protWrite, i.toNat⟩
  else if pageNumber dataSegBase ≤ i ∧ i < pageNumber dataSegLimit then
    ⟨true, protRead ||| protWrite, i.toNat⟩
  else if 0 ≤ i ∧ i < pageNumber dataSegBase then ⟨true, protRead ||| protExec, i.toNat⟩
  else {}

/-- The memory after `init_queues`, `gather_free_frames` and `enable_vmem`. A
kernel without a text page, or one that reaches into its own stack, does not
boot, and neither does one that cannot have the heads of its lists. -/
def bootMem (b : Boot) : Option Mem :=
  let m : Mem :=
    { freeFrames := [], krnlPageTable := fun _ => {}, kernelBrk := b.dataEnd,
      vmemEnabled := false, initialKs := fun _ => {}, mallocs := b.queueMallocs }
  (initQueues 10 m).bind fun m =>
    let head := Mem.malloc { m with mallocs := b.gatherMallocs }
    if head.1.ok then
      let m := gatherFreeFrames b.totalFrames head.2
      if 0 < pageNumber b.dataStart ∧ b.dataStart ≤ b.dataEnd ∧
          m.kernelBrk ≤ BitVec.ofInt 32 kernelStackBase then
        some { m with
          krnlPageTable := bootPageTable b.dataStart b.dataEnd m.kernelBrk
          vmemEnabled := true, mallocs := b.procMallocs }
      else none
    else none

namespace Kernel

/-- The kernel before there is a process. -/
def empty (m : Mem) : Kernel where
  mem := m
  pcb := fun _ => {}
  family := fun _ => {}
  space := fun _ => {}
  nextPid := 0
  nextSem := 0
  live := []
  activeProc := none
  readyQueue := []
  sleepList := []
  waitList := []
  ioList := []
  deadList := []
  pipes := .empty
  locks := .empty
  cvars := .empty
  sems := .empty
  reclaimList := []
  receive := fun _ _ => 0
  stringLen := 0
  busyTerminal := fun _ => false
  transmitted := []
  uContext := {}
  ptbr1 := none
  userMode := false
  phys := fun _ _ => 0
  world := {}
  fellThrough := 0
  readied := []
  dispatched := []

/-- The part that `init_init` and `init_idle` share: a PCB without parent and
children, with an empty user page table, whose kernel stack entries are as
`kStackPt` makes them from what the block held. -/
def bootProc (σ : Kernel) (state : ProcState) (uctxt : UserContext)
    (kStackPt : PageTable → Mem → Option (Mem × PageTable)) : Option Kernel :=
  let block := σ.malloc
  let head := block.2.malloc
  if block.1.ok ∧ head.1.ok then
    let σ := head.2
    (kStackPt (fun i => block.1.fill (userPagetableSize + i)) σ.mem).map fun r =>
      { σ with
        mem := r.1
        pcb := Function.update σ.pcb σ.nextPid { state := state, uctxt := uctxt }
        family := Function.update σ.family σ.nextPid {}
        space := Function.update σ.space σ.nextPid { kStackPt := r.2 }
        live := σ.live ++ [σ.nextPid]
        ptbr1 := some σ.nextPid
        nextPid := σ.nextPid + 1 }
  else none

/-- `init_init`. A program that cannot be loaded is only reported. -/
def initInit (σ : Kernel) (b : Boot) : Option Kernel :=
  let p := σ.nextPid
  (σ.bootProc .running b.uctxt fun t m => initKStack (pages 0 1 2) m t).bind fun σ =>
    (σ.loadProgram b.initFile (some b.args) p).map Prod.snd

/-- `init_idle`, whose kernel stack is made when it is first switched to. -/
def initIdle (σ : Kernel) (b : Boot) : Option Kernel :=
  let p := σ.nextPid
  (σ.bootProc .ready b.uctxt fun t m =>
      some (m, fun i => if i = 0 ∨ i = 1 then { t i with pfn := 0 } else t i)).bind fun σ =>
    (σ.loadProgram b.idleFile (some b.args) p).map Prod.snd

/-- `save_initial_kernel`, and the end of `KernelStart`. -/
def startInit (σ : Kernel) (init : Pid) : Option Kernel :=
  (initKStack (pages 0 1 2) σ.mem σ.mem.initialKs).map fun r =>
    startUser { σ with mem := { r.1 with initialKs := r.2 }, activeProc := some init } init

/-- `KernelStart`. -/
def kernelStart (b : Boot) : Option Kernel :=
  (bootMem b).bind fun m =>
    ((empty m).initInit b).bind fun σ =>
      (σ.initIdle b).bind fun σ => (σ.readyInsert idle).2.startInit 0

end Kernel

end Yalnix
