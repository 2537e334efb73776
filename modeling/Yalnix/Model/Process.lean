import Yalnix.Model.LoadProgram

/-!
# Kernel calls for processes

This module embeds `sys_Brk`, `sys_Fork`, `sys_Exec`, `sys_Wait`, `sys_Exit`,
`sys_Getpid` and `sys_Delay`. Each takes the active process `p` and reads its
arguments from the registers in `uContext`. `none` is undefined behaviour: an
index outside a table, a pointer that is not mapped, or `NULL`.
-/

namespace Yalnix

namespace Kernel

/-- The argument register `i`. -/
def reg (σ : Kernel) (i : Fin 8) : Word := σ.uContext.regs i

/-- The tests of `sys_Exec`, `sys_Wait`, `sys_PipeRead` and `sys_PipeWrite` on a
pointer argument: `NULL`, below region 1, or between heap and stack. -/
def badPointer (σ : Kernel) (p : Pid) (addr : Word) : Bool :=
  let pageNum := pageNumber (downToPage addr - vmem1Base)
  addr = 0 || addr.toInt < vmem1Base.toInt ||
    ((σ.space p).nextHeapPn ≤ pageNum && pageNum ≤ (σ.space p).nextStackPn)

/-- `get_pcb`; an index below 0 has no entry either, and the entry of a pid that
has not been handed out is `NULL`. -/
def getPcb (σ : Kernel) (pid : Pid) : Option Pid :=
  if pid > maxProc - 1 ∨ pid < 0 then none else if pid < σ.nextPid then some pid else none

/-! ## Memory -/

/-- `sys_Brk`. -/
def sysBrk (σ : Kernel) (p : Pid) : Option (Outcome × Kernel) :=
  let x := σ.space p
  let pnEnd := pageNumber (upToPage (σ.reg 0) - vmem1Base)
  let pnStart := x.nextHeapPn
  (grabPages (pages pnStart 1 (pnEnd - pnStart).toNat) σ.mem x.uPageTable).map fun r =>
    if r.1 then (.ret 0, σ.setMap p r { x with nextHeapPn := pnEnd })
    else (.ret error, σ.setMap p r x)

/-! ## Fork -/

/-- The first part of `sys_Fork`, after the block for the child's PCB has been
allocated: the child gets its pid and its entry of `pcb_table`, and its pid is
put into the parent's `children`. What the block held is in the parts of the PCB
that are not set yet. -/
def createChild (σ : Kernel) (p : Pid) (block : Malloc) : Kernel :=
  let child := σ.nextPid
  let r := listInsert (σ.family p).children ((σ.family p).children.length + 1) child σ.mem
  { σ with
    mem := r.2.2
    nextPid := child + 1
    live := σ.live ++ [child]
    pcb := Function.update σ.pcb child {}
    family := Function.update (Function.update σ.family child { ppid := p, children := [] }) p
      { σ.family p with children := r.2.1 }
    space := Function.update σ.space child
      { uPageTable := block.fill, kStackPt := fun i => block.fill (userPagetableSize + i) } }

/-- The part of `sys_Fork` that copies the address space of `p`, and whether all
frames could be had. -/
def copySpace (σ : Kernel) (p child : Pid) : Bool × Kernel :=
  let parent := σ.space p
  let r := copyPages parent.uPageTable userPages σ.mem (fun _ => {}) σ.phys
  let x := { σ.space child with uPageTable := r.2.2.1 }
  let x := if r.1 then
    { x with nextHeapPn := parent.nextHeapPn, nextStackPn := parent.nextStackPn } else x
  (r.1, { σ with mem := r.2.1, space := Function.update σ.space child x, phys := r.2.2.2 })

/-- `sys_Fork`. -/
def sysFork (σ : Kernel) (p : Pid) : Option (Outcome × Kernel) :=
  let block := σ.malloc
  if block.1.ok then
    let child := σ.nextPid
    if child ≥ maxProc then none
    else
      let head := (block.2.createChild p block.1).malloc
      if head.1.ok then
        let σ := head.2
        let σ := σ.setPcb child { σ.pcb child with uctxt := σ.uContext.setRet 0 }
        (σ.initProcKernel child).map fun σ =>
          let r := σ.copySpace p child
          if r.1 then (.ret child, (r.2.readyInsert child).2) else (.ret error, r.2)
      else some (.ret error, head.2)
  else some (.ret error, block.2)

/-! ## Exec -/

/-- The string at address `a`, of fewer than `n` bytes. -/
def readString (σ : Kernel) : ℕ → Word → Option (List Byte)
  | 0, _ => none
  | n + 1, a =>
      (σ.loadByte a).bind fun b =>
        if b = 0 then some [] else (readString σ n (a + 1)).map fun bs => b :: bs

/-- The strings of the argument vector at address `a`, of fewer than `n`
pointers. Region 1 has room for 2 ^ 18 pointers and 2 ^ 20 bytes. -/
def readArgs (σ : Kernel) : ℕ → Word → Option (List (List Byte))
  | 0, _ => none
  | n + 1, a =>
      (σ.loadInt a).bind fun s =>
        if s = 0 then some []
        else
          (σ.readString (2 ^ 20 + 1) s).bind fun s =>
            (readArgs σ n (a + 4)).map fun args => s :: args

/-- The end of `KernelStart`, where `return_initial_state` leads. -/
def startUser (σ : Kernel) (p : Pid) : Kernel :=
  { σ with uContext := (σ.pcb p).uctxt, ptbr1 := some p, userMode := true }

/-- `sys_Exec`. -/
def sysExec (σ : Kernel) (p : Pid) : Option (Outcome × Kernel) :=
  let addr := σ.reg 1
  if σ.badPointer p addr then some (.ret error, σ)
  else
    (σ.loadProgram σ.world.file (σ.readArgs (2 ^ 18 + 1) addr) p).map fun r =>
      if r.1 = error then (.ret error, r.2) else (.restarted, r.2.startUser p)

/-! ## Wait -/

/-- The record that is read at position `k` (from 0) of `dead_list`. -/
def readDead (σ : Kernel) (k : ℕ) : Option DeadInfo → DeadInfo
  | some d => d
  | none => σ.world.staleDead k

/-- The position, counted from `k`, of the first record that names `p` as the
parent. -/
def deadIndex (σ : Kernel) (p : Pid) : ℕ → List (Option DeadInfo) → Option ℕ
  | _, [] => none
  | k, d :: ds => if (σ.readDead k d).ppid = p then some k else deadIndex σ p (k + 1) ds

/-- `free (d); free (list_remove (&dead_list, i))` for the record `d` at position
`k`: the record is freed where it is, and the `i`-th entry (from 1) leaves the
list. -/
def freeDead (l : List (Option DeadInfo)) (k i : ℕ) : List (Option DeadInfo) :=
  ((listRemove (l.set k none) i).map Prod.snd).getD (l.set k none)

/-- The walk of `sys_Wait` over `dead_list`, whose counter is `i` at the first
record; `otherwise` is what follows it when no record names `p`. Freeing a
record a second time is undefined. -/
def scanDead (σ : Kernel) (p : Pid) (statusPtr : Word) (i : ℕ)
    (otherwise : Option (Outcome × Kernel)) : Option (Outcome × Kernel) :=
  match σ.deadIndex p 0 σ.deadList with
  | none => otherwise
  | some k =>
      match σ.deadList[k]? with
      | some (some d) =>
          (σ.storeInt statusPtr d.status).map fun σ =>
            (.ret d.pid, { σ with deadList := freeDead σ.deadList k (i + k) })
      | _ => none

/-- `sys_Wait` after `normal_schedule`. -/
def sysWaitResume (σ : Kernel) (p : Pid) (statusPtr : Word) (i : ℕ) :
    Option (Outcome × Kernel) :=
  σ.scanDead p statusPtr i (some (.ret error, σ))

/-- `sys_Wait`. The first walk leaves its counter behind the end of the list. -/
def sysWait (σ : Kernel) (p : Pid) : Option (Outcome × Kernel) :=
  let statusPtr := σ.reg 0
  if σ.badPointer p statusPtr then some (.ret error, σ)
  else
    (σ.loadInt statusPtr).bind fun _ =>
      if (σ.family p).children.length ≤ 0 then some (.ret error, σ)
      else
        let i := σ.deadList.length + 1
        σ.scanDead p statusPtr 1
          ((σ.waitInsert p).2.block (.wait statusPtr i) fun σ => σ.sysWaitResume p statusPtr i)

/-! ## Exit -/

/-- The pids that the walk of `sys_Exit` over `children` reads: it starts at the
first child, if there is one, and goes on until a link is `NULL`. -/
def exitWalk (σ : Kernel) (p : Pid) : List Pid :=
  if (σ.family p).children = [] then [] else (σ.family p).children ++ σ.world.strays

/-- The loop of `sys_Exit` over the pids that it reads, which lose their parent. -/
def orphan (σ : Kernel) : List Pid → (Pid → Family) → Option (Pid → Family)
  | [], family => some family
  | c :: cs, family =>
      (σ.getPcb c).bind fun c => orphan σ cs (Function.update family c { family c with ppid := -1 })

/-- The part of `sys_Exit` that tells the parent: the death is recorded, and the
pid leaves the parent's `children`. -/
def tellParent (σ : Kernel) (p : Pid) (status : Word) : Option (Int × Kernel) :=
  let ppid := (σ.family p).ppid
  if ppid = -1 then some (0, σ)
  else
    let r := σ.insertDeadList ppid p status
    if r.1 ≠ 0 then some (error, r.2)
    else
      (σ.getPcb ppid).map fun p1 =>
        let x := r.2.family p1
        (0, r.2.setFamily p1 { x with children := x.children.erase p })

/-- The part of `sys_Exit` that frees the frames of `p`. -/
def freeSpace (σ : Kernel) (p : Pid) : Kernel :=
  let x := σ.space p
  let u := freePages userPages σ.mem x.uPageTable
  let k := freePages (pages 0 1 2) u.1 x.kStackPt
  { σ with
    mem := k.1
    space := Function.update σ.space p { x with uPageTable := u.2, kStackPt := k.2 } }

/-- The part of `sys_Exit` that wakes the parent. -/
def wakeParent (σ : Kernel) (ppid : Pid) : Kernel :=
  if ppid ∈ σ.waitList then
    (readyInsert { σ with waitList := σ.waitList.erase ppid } ppid).2
  else σ

/-- `sys_Exit` with the status that its mode gives. -/
def sysExit (σ : Kernel) (p : Pid) (status : Word) : Option (Outcome × Kernel) :=
  (σ.orphan (σ.exitWalk p) σ.family).bind fun family =>
    (tellParent { σ with family := family } p status).bind fun r =>
      if r.1 ≠ 0 then some (.ret error, r.2)
      else
        let σ := (r.2.freeSpace p).wakeParent (r.2.family p).ppid
        block { σ with activeProc := none, live := σ.live.erase p } .kernelStart fun σ =>
          some (.ret 0, σ)

/-- The status of an illegal abort: mode 1 of `sys_Exit`. -/
def abortStatus : Word := BitVec.ofInt 32 error

/-! ## Getpid and Delay -/

/-- `sys_Getpid`. -/
def sysGetpid (σ : Kernel) (p : Pid) : Option (Outcome × Kernel) := some (.ret p, σ)

/-- `sys_Delay`. -/
def sysDelay (σ : Kernel) (p : Pid) : Option (Outcome × Kernel) :=
  let clockTicks := (σ.reg 0).toInt
  if clockTicks < 0 then some (.ret error, σ)
  else if clockTicks = 0 then some (.ret 0, σ)
  else
    let r := σ.insertSleepList p clockTicks
    if r.1 ≠ 0 then some (.ret error, r.2)
    else r.2.block .delay fun σ => some (.ret 0, σ)

end Kernel

end Yalnix
