import Yalnix.Model.Memory

/-!
# Scheduling

This module embeds `scheduler.c` and `normal_schedule`. A context switch ends
the step: `contextSwitch` leaves the new process active in kernel mode, and its
next step continues at the place its `kctxt` names. `normalSchedule` says
whether it switched or returned to its caller; a caller that blocks is written
with `block`, which is given the place where the process will continue and what
the caller does when `normal_schedule` returns 0 at once.
-/

namespace Yalnix

/-- How a kernel call ends its step: it returns `v` to the trap handler, it has
switched to another process, or it has gone back to the end of `KernelStart`. -/
inductive Outcome where
  | ret (v : Int)
  | switched
  | restarted
  deriving DecidableEq

/-- How `normal_schedule` or `do_scheduler` ends: in a context switch, or by
returning. -/
inductive Sched where
  | switched
  | returned (rc : Int)
  deriving DecidableEq

namespace Kernel

/-! ## Queues -/

/-- `list_insert (&ready_queue, ready_queue.len+1, p)`. -/
def readyInsert (σ : Kernel) (p : Pid) : Int × Kernel :=
  let r := listInsert σ.readyQueue (σ.readyQueue.length + 1) p σ.mem
  (r.1, { σ with
    readyQueue := r.2.1
    mem := r.2.2
    readied := if r.1 = 0 then σ.readied ++ [p] else σ.readied })

/-- `list_insert (&wait_list, wait_list.len+1, p)`. -/
def waitInsert (σ : Kernel) (p : Pid) : Int × Kernel :=
  let r := listInsert σ.waitList (σ.waitList.length + 1) p σ.mem
  (r.1, { σ with waitList := r.2.1, mem := r.2.2 })

/-- `list_insert (&io_list, io_list.len+1, p)`. -/
def ioInsert (σ : Kernel) (p : Pid) : Int × Kernel :=
  let r := listInsert σ.ioList (σ.ioList.length + 1) p σ.mem
  (r.1, { σ with ioList := r.2.1, mem := r.2.2 })

/-- `malloc` for an object of the kernel. -/
def malloc (σ : Kernel) : Malloc × Kernel :=
  (σ.mem.malloc.1, { σ with mem := σ.mem.malloc.2 })

/-- `insert_sleep_list`. -/
def insertSleepList (σ : Kernel) (p : Pid) (clockTicks : Int) : Int × Kernel :=
  let s := σ.malloc
  if s.1.ok then
    let σ := s.2.setPcb p { s.2.pcb p with state := .delay }
    let r := listInsert σ.sleepList (σ.sleepList.length + 1) ⟨clockTicks, p⟩ σ.mem
    (r.1, { σ with sleepList := r.2.1, mem := r.2.2 })
  else (error, s.2)

/-- `insert_dead_list`. -/
def insertDeadList (σ : Kernel) (ppid pid : Pid) (status : Word) : Int × Kernel :=
  let d := σ.malloc
  if d.1.ok then
    let σ := d.2
    let r := listInsert σ.deadList (σ.deadList.length + 1) (some ⟨ppid, pid, status⟩) σ.mem
    (r.1, { σ with deadList := r.2.1, mem := r.2.2 })
  else (error, d.2)

/-- The loop of `update_sleep_list`: `curr` is node `i` of `sleep_list`, and the list given
is what `curr` and the nodes behind it hold. A node that is removed still leads to the next
one. -/
def sleepLoop : List SleepInfo → ℕ → Kernel → Kernel
  | [], _, σ => σ
  | s :: next, i, σ =>
      let s : SleepInfo := { s with ticksLeft := s.ticksLeft - 1 }
      let σ := { σ with sleepList := σ.sleepList.set (i - 1) s }
      if s.ticksLeft ≤ 0 then
        let σ := ((σ.setPcb s.pcb { σ.pcb s.pcb with state := .ready }).readyInsert s.pcb).2
        match listRemove σ.sleepList i with
        | none => σ
        | some (_, l) => sleepLoop next (i - 1 + 1) { σ with sleepList := l }
      else sleepLoop next (i + 1) σ

/-- `update_sleep_list`. -/
def updateSleepList (σ : Kernel) : Kernel := sleepLoop σ.sleepList 1 σ

/-! ## Context switches -/

/-- `init_proc_kernel`. -/
def initProcKernel (σ : Kernel) (cur : Pid) : Option Kernel :=
  (initKStack (pages 0 1 2) σ.mem (σ.space cur).kStackPt).map fun r =>
    { σ with
      mem := r.1
      pcb := Function.update σ.pcb cur { σ.pcb cur with kctxt := .kernelStart }
      space := Function.update σ.space cur { σ.space cur with kStackPt := r.2 } }

/-- A process table in which the user context of `old` has been saved. -/
def saveUser (σ : Kernel) : Option Pid → Kernel
  | none => σ
  | some o => σ.setPcb o { σ.pcb o with uctxt := σ.uContext }

/-- A process table in which `old` will continue at `k`. -/
def saveKernel (σ : Kernel) (k : KernelContext) : Option Pid → Kernel
  | none => σ
  | some o => σ.setPcb o { σ.pcb o with kctxt := k }

/-- `context_switch` up to the point where `new` runs. A `new` that is `NULL`, or
whose kernel stack cannot be made, has no context to switch to. -/
def contextSwitch (σ : Kernel) (old : Option Pid) (new : Pid) (k : KernelContext) :
    Option Kernel :=
  if new = nullProc then none
  else
    let σ := saveUser { σ with
      activeProc := some new, dispatched := σ.dispatched ++ [new] } old
    (if ((σ.space new).kStackPt 0).pfn = 0 then σ.initProcKernel new else some σ).map fun σ =>
      { σ.saveKernel k old with userMode := false }

/-- The head of `ready_queue` for `normal_schedule` and `do_scheduler`: idle goes
to the end and the next one is taken, and there is none when idle had been alone
and could not be put back. -/
def nextReady (σ : Kernel) : Option Pid × Kernel :=
  match listRemove σ.readyQueue 1 with
  | none => (none, σ)
  | some (next, q) =>
      if next = idle then
        let σ := (readyInsert { σ with readyQueue := q } next).2
        match listRemove σ.readyQueue 1 with
        | none => (none, σ)
        | some (next, q) => (some next, { σ with readyQueue := q })
      else (some next, { σ with readyQueue := q })

/-- `normal_schedule`. -/
def normalSchedule (σ : Kernel) (k : KernelContext) : Option (Sched × Kernel) :=
  if σ.readyQueue.length > 0 then
    match σ.nextReady with
    | (none, σ) => some (.returned error, σ)
    | (some next, σ) => (σ.contextSwitch σ.activeProc next k).map fun σ => (.switched, σ)
  else some (.returned 0, { σ with fellThrough := σ.fellThrough + 1 })

/-- A call of `normal_schedule`, and what follows it in the caller when it
returns 0. -/
def block (σ : Kernel) (k : KernelContext) (after : Kernel → Option (Outcome × Kernel)) :
    Option (Outcome × Kernel) :=
  (σ.normalSchedule k).bind fun r =>
    match r.1 with
    | .switched => some (.switched, r.2)
    | .returned rc => if rc ≠ 0 then some (.ret error, r.2) else after r.2

/-- `do_scheduler`. With no active process it queues `NULL`. -/
def doScheduler (σ : Kernel) : Option (Sched × Kernel) :=
  if σ.readyQueue.length > 0 then
    let old := σ.activeProc
    match ((σ.readyInsert (old.getD nullProc)).2).nextReady with
    | (none, σ) => some (.returned error, σ)
    | (some next, σ) => (σ.contextSwitch old next .preempted).map fun σ => (.switched, σ)
  else some (.returned 0, σ)

/-! ## Destroying objects -/

/-- The loop `for (j = 1; j <= wait_list.len; j++)` of the `destroy` functions
from its `j`-th turn on: each turn makes the first waiting process ready. It
yields the processes that are left in the waiting list. -/
def wakeWaiting (j : ℕ) : List Pid → Kernel → List Pid × Kernel
  | [], σ => ([], σ)
  | p :: l, σ =>
      if j ≤ l.length + 1 then wakeWaiting (j + 1) l (σ.readyInsert p).2 else (p :: l, σ)

/-- `destroy_pipe_info`. -/
def destroyPipeInfo (σ : Kernel) (pipeId : Int) : Int × Kernel :=
  if pipeId < 0 then (error, σ)
  else
    match σ.pipes.find? fun pi => pi.pipeid = pipeId with
    | none => (error, σ)
    | some a =>
        let r := wakeWaiting 1 (σ.pipes.cell a).pipeWaitList σ
        (0, { r.2 with pipes := r.2.pipes.free a })

/-- `destroy_lock_info`, called by process `p`. -/
def destroyLockInfo (σ : Kernel) (p : Pid) (lockId : Int) : Int × Kernel :=
  if lockId < 0 then (error, σ)
  else
    match σ.locks.find? fun l =>
        l.lockid = lockId ∧ (l.pid = p ∧ l.locked = true ∨ l.locked = false) with
    | none => (error, σ)
    | some a =>
        let r := wakeWaiting 1 (σ.locks.cell a).lockWaitList σ
        (0, { r.2 with locks := r.2.locks.free a })

/-- `destroy_cvar_info`. -/
def destroyCvarInfo (σ : Kernel) (cvarId : Int) : Int × Kernel :=
  if cvarId < 0 then (error, σ)
  else
    match σ.cvars.find? fun c => c.cvarid = cvarId with
    | none => (error, σ)
    | some a =>
        let r := wakeWaiting 1 (σ.cvars.cell a).cvarWaitList σ
        (0, { r.2 with cvars := r.2.cvars.free a })

end Kernel

end Yalnix
