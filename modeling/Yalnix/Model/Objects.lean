import Yalnix.Model.Process

/-!
# Pipes, locks, condition variables and semaphores

This module embeds the kernel calls on the objects that processes share. A
pointer to an object is its address in the table of its type; a call that reads
through the address of an object that has left the table has no defined effect.
The three Init calls do not check the pointer that they store the id to; where it
points into region 0, they have no step. `free` of a pipe's buffer is not
modelled, and neither is what a block holds before it is written.
-/

namespace Yalnix

namespace Kernel

/-- `list_insert (&reclaim_list, reclaim_list.len+1, r)` with a new record. -/
def reclaimInsert (σ : Kernel) (type : Kind) : Int × Kernel :=
  let r := listInsert σ.reclaimList (σ.reclaimList.length + 1) ⟨σ.reclaimList.length + 1, type⟩
    σ.mem
  (r.1, { σ with reclaimList := r.2.1, mem := r.2.2 })

/-- `list_insert (&(p->pipe_wait_list), p->pipe_wait_list.len+1, q)` for the pipe at
`a`. -/
def pipeWaitInsert (σ : Kernel) (a : ℕ) (q : Pid) : Kernel :=
  let x := σ.pipes.cell a
  let r := listInsert x.pipeWaitList (x.pipeWaitList.length + 1) q σ.mem
  { σ with mem := r.2.2, pipes := σ.pipes.write a { x with pipeWaitList := r.2.1 } }

/-- The same for the waiting list of the lock at `a`. -/
def lockWaitInsert (σ : Kernel) (a : ℕ) (q : Pid) : Kernel :=
  let l := σ.locks.cell a
  let r := listInsert l.lockWaitList (l.lockWaitList.length + 1) q σ.mem
  { σ with mem := r.2.2, locks := σ.locks.write a { l with lockWaitList := r.2.1 } }

/-- The same for the waiting list of the cvar at `a`. -/
def cvarWaitInsert (σ : Kernel) (a : ℕ) (q : Pid) : Kernel :=
  let c := σ.cvars.cell a
  let r := listInsert c.cvarWaitList (c.cvarWaitList.length + 1) q σ.mem
  { σ with mem := r.2.2, cvars := σ.cvars.write a { c with cvarWaitList := r.2.1 } }

/-- The same for the waiting list of the semaphore at `a`. -/
def semWaitInsert (σ : Kernel) (a : ℕ) (q : Pid) : Kernel :=
  let s := σ.sems.cell a
  let r := listInsert s.waiting (s.waiting.length + 1) q σ.mem
  { σ with mem := r.2.2, sems := σ.sems.write a { s with waiting := r.2.1 } }

/-- The id that the next object gets. -/
def newId (σ : Kernel) : Int := σ.reclaimList.length + 1

/-! ## Pipes -/

/-- `sys_PipeInit`. -/
def sysPipeInit (σ : Kernel) (_p : Pid) : Option (Outcome × Kernel) :=
  let pipe := σ.malloc
  let record := pipe.2.malloc
  if pipe.1.ok = false ∨ record.1.ok = false then some (.ret error, record.2)
  else
    let buffer := record.2.malloc
    if buffer.1.ok = false then some (.ret error, buffer.2)
    else
      let head := buffer.2.malloc
      if head.1.ok = false then some (.ret error, head.2)
      else
        (head.2.storeInt (σ.reg 0) (BitVec.ofInt 32 σ.newId)).bind fun σ =>
          let node := σ.malloc
          if node.1.ok = false then some (.ret error, node.2)
          else
            let pipes := node.2.pipes.alloc pipe.1.addr ⟨σ.newId, 0, fun _ => 0, []⟩
            let r := reclaimInsert { node.2 with pipes := pipes } .pipe
            some (if r.1 ≠ 0 then (.ret error, r.2) else (.ret 0, r.2))

/-- The first process waiting for the pipe at `a` becomes ready. -/
def wakePipe (σ : Kernel) (a : ℕ) : Kernel :=
  let x := σ.pipes.cell a
  match listRemove x.pipeWaitList 1 with
  | none => σ
  | some (q, l) =>
      (readyInsert { σ with pipes := σ.pipes.write a { x with pipeWaitList := l } } q).2

/-- The part of `sys_PipeRead` that takes `len` bytes out of the pipe at `a`. -/
def takeBytes (σ : Kernel) (a : ℕ) (buf : Word) (len : Int) : Option (Outcome × Kernel) :=
  let x := σ.pipes.cell a
  (σ.copyOut buf ((List.range len.toNat).map x.pipeBuffer)).bind fun σ =>
    let tmp := σ.malloc
    if tmp.1.ok then
      let y :=
        { x with curLen := x.curLen - len, pipeBuffer := fun j => x.pipeBuffer (len.toNat + j) }
      some (.ret 0, wakePipe { tmp.2 with pipes := tmp.2.pipes.write a y } a)
    else none

/-- The loop of `sys_PipeRead` on the pipe at `a`. When `normal_schedule` finds
`ready_queue` empty it never ends. -/
def pipeReadLoop (σ : Kernel) (p : Pid) (a : ℕ) (pipeId : Int) (buf : Word) (len : Int)
    (exist : Bool) : Option (Outcome × Kernel) :=
  if a ∈ σ.pipes.list then
    if (σ.pipes.cell a).curLen < len then
      (σ.pipeWaitInsert a p).block (.pipeRead a pipeId buf len exist) fun _ => none
    else σ.takeBytes a buf len
  else none

/-- `sys_PipeRead` after `normal_schedule`. The flag `exist` keeps the value that
an earlier turn gave it. -/
def sysPipeReadResume (σ : Kernel) (p : Pid) (a : ℕ) (pipeId : Int) (buf : Word) (len : Int)
    (exist : Bool) : Option (Outcome × Kernel) :=
  let exist := exist || σ.pipes.any fun p1 => p1.pipeid = pipeId
  if exist then σ.pipeReadLoop p a pipeId buf len exist else some (.ret error, σ)

/-- `sys_PipeRead`. -/
def sysPipeRead (σ : Kernel) (p : Pid) : Option (Outcome × Kernel) :=
  let pipeId := (σ.reg 0).toInt
  let buf := σ.reg 1
  let len := (σ.reg 2).toInt
  if σ.badPointer p buf then some (.ret error, σ)
  else if pipeId < 0 then some (.ret error, σ)
  else if len < 0 then some (.ret error, σ)
  else
    match σ.pipes.find? fun x => x.pipeid = pipeId with
    | none => some (.ret error, σ)
    | some a => σ.pipeReadLoop p a pipeId buf len false

/-- `sys_PipeWrite`. -/
def sysPipeWrite (σ : Kernel) (p : Pid) : Option (Outcome × Kernel) :=
  let pipeId := (σ.reg 0).toInt
  let buf := σ.reg 1
  let len := (σ.reg 2).toInt
  if σ.badPointer p buf then some (.ret error, σ)
  else if pipeId < 0 then some (.ret error, σ)
  else if len < 0 then some (.ret error, σ)
  else
    match σ.pipes.find? fun x => x.pipeid = pipeId with
    | none => some (.ret error, σ)
    | some a =>
        let x := σ.pipes.cell a
        let byteWrite := if pipeBufSize - x.curLen < len then pipeBufSize - x.curLen else len
        (σ.copyIn buf byteWrite.toNat).map fun bytes =>
          let pipeBuffer : ℕ → Byte := fun j =>
            if x.curLen.toNat ≤ j then (bytes[j - x.curLen.toNat]?).getD (x.pipeBuffer j)
            else x.pipeBuffer j
          let y := { x with curLen := x.curLen + byteWrite, pipeBuffer := pipeBuffer }
          (.ret byteWrite, wakePipe { σ with pipes := σ.pipes.write a y } a)

/-! ## Locks -/

/-- `sys_LockInit`. The `NULL` that it stores as the owner is 0. -/
def sysLockInit (σ : Kernel) (_p : Pid) : Option (Outcome × Kernel) :=
  let lock := σ.malloc
  let record := lock.2.malloc
  if lock.1.ok = false ∨ record.1.ok = false then some (.ret error, record.2)
  else
    let head := record.2.malloc
    if head.1.ok = false then some (.ret error, head.2)
    else
      (head.2.storeInt (σ.reg 0) (BitVec.ofInt 32 σ.newId)).bind fun σ =>
        let node := σ.malloc
        if node.1.ok = false then some (.ret error, node.2)
        else
          let locks := node.2.locks.alloc lock.1.addr ⟨σ.newId, false, 0, []⟩
          let r := reclaimInsert { node.2 with locks := locks } .lock
          some (if r.1 ≠ 0 then (.ret error, r.2) else (.ret 0, r.2))

/-- The loop of `sys_Acquire` on the lock at `a`. -/
def acquireLoop (σ : Kernel) (p : Pid) (via : Option Int) (a : ℕ) (lockId : Int)
    (exist : Bool) : Option (Outcome × Kernel) :=
  if a ∈ σ.locks.list then
    let l := σ.locks.cell a
    if l.locked then (σ.lockWaitInsert a p).block (.acquire via a lockId exist) fun _ => none
    else some (.ret 0, { σ with locks := σ.locks.write a { l with locked := true, pid := p } })
  else none

/-- `sys_Acquire` after `normal_schedule`. -/
def sysAcquireResume (σ : Kernel) (p : Pid) (via : Option Int) (a : ℕ) (lockId : Int)
    (exist : Bool) : Option (Outcome × Kernel) :=
  let exist := exist || σ.locks.any fun l1 => l1.lockid = lockId
  if exist then σ.acquireLoop p via a lockId exist else some (.ret error, σ)

/-- `sys_Acquire`, called by the trap handler with the id `NULL`, or by
`sys_CvarWait` on the cvar `via`. -/
def sysAcquire (σ : Kernel) (p : Pid) (via : Option Int) (id : Int) :
    Option (Outcome × Kernel) :=
  let lockId := if id = 0 then (σ.reg 0).toInt else id
  if id < 0 then some (.ret 0, σ)
  else
    match σ.locks.find? fun l => l.lockid = lockId with
    | none => some (.ret error, σ)
    | some a => σ.acquireLoop p via a lockId false

/-- `sys_Release`. The first waiting process is made ready and noted as the owner,
while the lock stays free. -/
def sysRelease (σ : Kernel) (p : Pid) (lockId : Int) : Int × Kernel :=
  match σ.locks.find? fun l => l.lockid = lockId ∧ l.pid = p ∧ l.locked = true with
  | none => (error, σ)
  | some a =>
      let l := σ.locks.cell a
      match listRemove l.lockWaitList 1 with
      | none => (0, { σ with locks := σ.locks.write a { l with locked := false, pid := 0 } })
      | some (q, rest) =>
          let l := { l with locked := false, pid := q, lockWaitList := rest }
          (0, (readyInsert { σ with locks := σ.locks.write a l } q).2)

/-! ## Condition variables -/

/-- `sys_CvarInit`. The record is used without a test whether it was allocated. -/
def sysCvarInit (σ : Kernel) (_p : Pid) : Option (Outcome × Kernel) :=
  let record := σ.malloc
  let cvar := record.2.malloc
  if cvar.1.ok = false then some (.ret error, cvar.2)
  else
    let head := cvar.2.malloc
    if head.1.ok = false then some (.ret error, head.2)
    else
      (head.2.storeInt (σ.reg 0) (BitVec.ofInt 32 σ.newId)).bind fun σ =>
        let node := σ.malloc
        if node.1.ok = false then some (.ret error, node.2)
        else if record.1.ok then
          let cvars := node.2.cvars.alloc cvar.1.addr ⟨σ.newId, []⟩
          let r := reclaimInsert { node.2 with cvars := cvars } .cvar
          some (if r.1 ≠ 0 then (.ret error, r.2) else (.ret 0, r.2))
        else none

/-- `sys_CvarSignal`. -/
def sysCvarSignal (σ : Kernel) (_p : Pid) : Option (Outcome × Kernel) :=
  let cvarId := (σ.reg 0).toInt
  if cvarId < 0 then some (.ret error, σ)
  else
    match σ.cvars.find? fun c => c.cvarid = cvarId with
    | none => some (.ret error, σ)
    | some a =>
        let c := σ.cvars.cell a
        match listRemove c.cvarWaitList 1 with
        | none => some (.ret 0, σ)
        | some (q, l) =>
            let r := readyInsert
              { σ with cvars := σ.cvars.write a { c with cvarWaitList := l } } q
            some (if r.1 ≠ 0 then (.ret error, r.2) else (.ret 0, r.2))

/-- The loop of `sys_CvarBroadcast`: its return code, the processes that still
wait, and the kernel. -/
def wakeAll : List Pid → Kernel → Int × List Pid × Kernel
  | [], σ => (0, [], σ)
  | q :: l, σ =>
      let r := σ.readyInsert q
      if r.1 ≠ 0 then (error, l, r.2) else wakeAll l r.2

/-- `sys_CvarBroadcast`. -/
def sysCvarBroadcast (σ : Kernel) (_p : Pid) : Option (Outcome × Kernel) :=
  let cvarId := (σ.reg 0).toInt
  if cvarId < 0 then some (.ret error, σ)
  else
    match σ.cvars.find? fun c => c.cvarid = cvarId with
    | none => some (.ret error, σ)
    | some a =>
        let c := σ.cvars.cell a
        let r := wakeAll c.cvarWaitList σ
        some (.ret r.1, { r.2.2 with
          cvars := r.2.2.cvars.write a { c with cvarWaitList := r.2.1 } })

/-- `sys_CvarWait` after `normal_schedule`. -/
def sysCvarWaitResume (σ : Kernel) (p : Pid) (cvarId lockId : Int) :
    Option (Outcome × Kernel) :=
  if σ.cvars.any fun c1 => c1.cvarid = cvarId then σ.sysAcquire p (some cvarId) lockId
  else some (.ret error, σ)

/-- `sys_CvarWait`. -/
def sysCvarWait (σ : Kernel) (p : Pid) : Option (Outcome × Kernel) :=
  let cvarId := (σ.reg 0).toInt
  let lockId := (σ.reg 1).toInt
  let r := σ.sysRelease p lockId
  if r.1 ≠ 0 then some (.ret error, r.2)
  else
    let σ := r.2
    match σ.cvars.find? fun c => c.cvarid = cvarId with
    | none => some (.ret error, σ)
    | some a =>
        (σ.cvarWaitInsert a p).block (.cvarWait a cvarId lockId) fun σ =>
          σ.sysCvarWaitResume p cvarId lockId

/-! ## Reclaim -/

/-- The `destroy` function for objects of a type. -/
def destroy (σ : Kernel) (p : Pid) (id : Int) : Kind → Int × Kernel
  | .pipe => σ.destroyPipeInfo id
  | .lock => σ.destroyLockInfo p id
  | .cvar => σ.destroyCvarInfo id

/-- `sys_Reclaim`. -/
def sysReclaim (σ : Kernel) (p : Pid) : Option (Outcome × Kernel) :=
  let id := (σ.reg 0).toInt
  if id < 0 then some (.ret error, σ)
  else
    match σ.reclaimList.find? fun r => id = r.id with
    | none => some (.ret error, σ)
    | some r =>
        let d := σ.destroy p id r.type
        if d.1 ≠ 0 then some (.ret error, d.2)
        else some (.ret 0,
          { d.2 with reclaimList := d.2.reclaimList.eraseP fun r => id = r.id })

/-! ## Semaphores -/

/-- `sys_Custom_0`: a new semaphore. -/
def sysCustom0 (σ : Kernel) (_p : Pid) : Option (Outcome × Kernel) :=
  let tmp := σ.malloc
  if tmp.1.ok = false then some (.ret error, tmp.2)
  else
    let id := σ.nextSem
    let head := malloc { tmp.2 with nextSem := id + 1 }
    if head.1.ok = false then some (.ret error, head.2)
    else
      let node := head.2.malloc
      let sems := node.2.sems.alloc tmp.1.addr ⟨id, 0, []⟩
      let σ := if node.1.ok then { node.2 with sems := sems } else node.2
      some (.ret (σ.nextSem - 1), σ)

/-- `sys_Custom_1`: increment a semaphore. The search reads through `NULL` when
there is no such semaphore. -/
def sysCustom1 (σ : Kernel) (_p : Pid) : Option (Outcome × Kernel) :=
  (σ.sems.find? fun s => s.id = (σ.reg 0).toInt).map fun a =>
    let s := { σ.sems.cell a with count := (σ.sems.cell a).count + 1 }
    match if s.count ≤ 0 then listRemove s.waiting 1 else none with
    | none => (.ret 0, { σ with sems := σ.sems.write a s })
    | some (q, l) =>
        (.ret 0, (readyInsert { σ with sems := σ.sems.write a { s with waiting := l } } q).2)

/-- `sys_Custom_2`: wait on a semaphore. -/
def sysCustom2 (σ : Kernel) (p : Pid) : Option (Outcome × Kernel) :=
  (σ.sems.find? fun s => s.id = (σ.reg 0).toInt).bind fun a =>
    let s := { σ.sems.cell a with count := (σ.sems.cell a).count - 1 }
    let σ := { σ with sems := σ.sems.write a s }
    if s.count < 0 then (σ.semWaitInsert a p).block .semWait fun σ => some (.ret 0, σ)
    else some (.ret 0, σ)

end Kernel

end Yalnix
