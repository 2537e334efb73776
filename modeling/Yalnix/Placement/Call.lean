import Yalnix.Footprint.Park
import Yalnix.Placement.Queue

/-!
# Kernel calls move processes and lose none

Every call of a process other than idle, except Fork, Exit and Reclaim, leaves
each process in as many places as it was in: `sysCall_moves` for a call from its
start, `resumeCall_moves` for the part after a switch.
-/

namespace Yalnix

namespace Requeues

variable {σ τ : Kernel} {p : Pid} {o : Outcome}

/-! ## Calls that do not block -/

/-- A write to a pipe that leaves its waiting list as it was. -/
theorem writePipe (h : σ.mem.AllOk) {a : ℕ} {x : PipeInfo}
    (hx : x.pipeWaitList = (σ.pipes.cell a).pipeWaitList) :
    Requeues 0 σ { σ with pipes := σ.pipes.write a x } := by
  refine ⟨rfl, rfl, .same rfl rfl rfl, fun q => ?_, h⟩
  have hsum := Table.sum_write_of_eq (t := σ.pipes) (a := a) (x := x)
    (f := fun x => x.pipeWaitList.count q) (by rw [hx])
  simp only [Kernel.queued, Kernel.blocked, Pi.zero_apply]
  omega

/-- A write to a lock that leaves its waiting list as it was. -/
theorem writeLock (h : σ.mem.AllOk) {a : ℕ} {x : LockInfo}
    (hx : x.lockWaitList = (σ.locks.cell a).lockWaitList) :
    Requeues 0 σ { σ with locks := σ.locks.write a x } := by
  refine ⟨rfl, rfl, .same rfl rfl rfl, fun q => ?_, h⟩
  have hsum := Table.sum_write_of_eq (t := σ.locks) (a := a) (x := x)
    (f := fun x => x.lockWaitList.count q) (by rw [hx])
  simp only [Kernel.queued, Kernel.blocked, Pi.zero_apply]
  omega

/-- A write to a semaphore that leaves its waiting list as it was. -/
theorem writeSem (h : σ.mem.AllOk) {a : ℕ} {x : Semaphore}
    (hx : x.waiting = (σ.sems.cell a).waiting) :
    Requeues 0 σ { σ with sems := σ.sems.write a x } := by
  refine ⟨rfl, rfl, .same rfl rfl rfl, fun q => ?_, h⟩
  have hsum := Table.sum_write_of_eq (t := σ.sems) (a := a) (x := x)
    (f := fun x => x.waiting.count q) (by rw [hx])
  simp only [Kernel.queued, Kernel.blocked, Pi.zero_apply]
  omega

/-- The contents of a pipe change, and then its first waiting process becomes
ready. -/
theorem writePipe_wake (h : σ.mem.AllOk) {a : ℕ} (ha : a ∈ σ.pipes.list) {x : PipeInfo}
    (hx : x.pipeWaitList = (σ.pipes.cell a).pipeWaitList) :
    Requeues 0 σ (Kernel.wakePipe { σ with pipes := σ.pipes.write a x } a) :=
  ((writePipe h hx).trans (wakePipe (by exact h) (by exact ha))).congr (add_zero 0)

theorem takeBytes (h : σ.mem.AllOk) {a : ℕ} (ha : a ∈ σ.pipes.list) {buf : Word} {len : Int}
    (hs : σ.takeBytes a buf len = some (o, τ)) : Requeues 0 σ τ := by
  unfold Kernel.takeBytes at hs
  obtain ⟨σ₁, hσ₁, hs⟩ := Option.bind_eq_some_iff.1 hs
  have hout := (Kernel.copyOut_touches hσ₁).seq (Kernel.malloc_touches σ₁)
  obtain ⟨phys, -, rfl⟩ := Option.map_eq_some_iff.1 hσ₁
  dsimp only at hs
  split at hs
  · obtain ⟨-, rfl⟩ := Prod.mk.inj (Option.some.inj hs)
    exact .after hout (by simp) (writePipe_wake (hout.allOk (by simp) h) (by exact ha) (by rfl))
  · exact absurd hs (by simp)

theorem sysPipeWrite (h : σ.mem.AllOk) (hs : σ.sysPipeWrite p = some (o, τ)) :
    Requeues 0 σ τ := by
  unfold Kernel.sysPipeWrite at hs
  dsimp only at hs
  split at hs
  · exact (Prod.mk.inj (Option.some.inj hs)).2 ▸ refl h
  split at hs
  · exact (Prod.mk.inj (Option.some.inj hs)).2 ▸ refl h
  split at hs
  · exact (Prod.mk.inj (Option.some.inj hs)).2 ▸ refl h
  split at hs
  · exact (Prod.mk.inj (Option.some.inj hs)).2 ▸ refl h
  · rename_i a hfind
    obtain ⟨bytes, -, hs⟩ := Option.map_eq_some_iff.1 hs
    obtain ⟨-, rfl⟩ := Prod.mk.inj hs
    exact writePipe_wake h (Table.mem_of_find? hfind) (by rfl)

end Requeues

/-! ## Calls that may block -/

namespace Kernel

variable {σ σ' : Kernel} {p : Pid} {o : Outcome}

/-- A process other than idle makes a call and no allocation of the call fails. -/
structure Calling (σ : Kernel) (p : Pid) : Prop where
  active : σ.activeProc = some p
  ready : idle ∈ σ.readyQueue
  ok : σ.mem.AllOk

namespace Calling

theorem requeued {τ : Kernel} {d : Pid → ℕ} (h : σ.Calling p) (hq : Requeues d σ τ) :
    τ.Calling p := ⟨hq.active.trans h.active, hq.ready h.ready, hq.ok⟩

/-- A return without a change. -/
theorem ret (_h : σ.Calling p) {v : Outcome} (hs : some (v, σ) = some (o, σ')) :
    Moves σ σ' := .ret (.refl σ) hs

/-- After moves between queues, the process is put into a queue and blocks. -/
theorem block {σ₁ τ : Kernel} (h : σ.Calling p) (h₁ : Requeues 0 σ σ₁)
    (hq : Requeues (one p) σ₁ τ) {k : KernelContext}
    {after : Kernel → Option (Outcome × Kernel)} (hs : τ.block k after = some (o, σ')) :
    Moves σ σ' :=
  (Moves.block h.active h.ready ((h₁.trans hq).congr (zero_add _)) hs).1

/-- A process that has been put into a queue and blocks is switched out there. -/
theorem sleeps {τ : Kernel} (h : σ.Calling p) (hq : Requeues (one p) σ τ) {k : KernelContext}
    {after : Kernel → Option (Outcome × Kernel)} (hs : τ.block k after = some (o, σ')) :
    o = .switched ∧ Touches [.queues, .contexts, .users] τ σ' ∧ (σ'.pcb p).kctxt = k := by
  obtain rfl := (Moves.block h.active h.ready hq hs).2
  have hactive : τ.activeProc = some p := hq.active.trans h.active
  unfold Kernel.block at hs
  obtain ⟨r, hr, hs⟩ := Option.bind_eq_some_iff.1 hs
  obtain ⟨hsw, -⟩ := Kernel.normalSchedule_ok hq.ok (hq.ready h.ready) hr
  rw [hsw] at hs
  obtain ⟨-, rfl⟩ := Prod.mk.inj (Option.some.inj hs)
  refine ⟨rfl, normalSchedule_touches hr, normalSchedule_parks hactive (k := k) ?_⟩
  rw [hr, ← hsw]

theorem sysWait (h : σ.Calling p) (hs : σ.sysWait p = some (o, σ')) : Moves σ σ' := by
  unfold Kernel.sysWait at hs
  dsimp only at hs
  split at hs
  · exact h.ret hs
  obtain ⟨_, -, hs⟩ := Option.bind_eq_some_iff.1 hs
  split at hs
  · exact h.ret hs
  unfold scanDead at hs
  split at hs
  · exact h.block (.refl h.ok) (.waitInsert h.ok p) hs
  split at hs
  · obtain ⟨τ, hτ, hs⟩ := Option.map_eq_some_iff.1 hs
    obtain ⟨-, rfl⟩ := Prod.mk.inj hs
    obtain ⟨phys, -, rfl⟩ := Option.map_eq_some_iff.1 hτ
    exact ⟨fun _ => rfl, rfl, id, id, .of_feeds (.same rfl rfl rfl)⟩
  · exact absurd hs (by simp)

theorem sysDelay (h : σ.Calling p) (hs : σ.sysDelay p = some (o, σ')) : Moves σ σ' := by
  unfold Kernel.sysDelay at hs
  dsimp only at hs
  split at hs
  · exact h.ret hs
  split at hs
  · exact h.ret hs
  have hsleep := Requeues.insertSleepList h.ok p (σ.reg 0).toInt
  have hrc : (σ.insertSleepList p (σ.reg 0).toInt).1 = 0 := by
    unfold insertSleepList
    dsimp only
    rw [if_pos (show σ.malloc.1.ok = true from h.ok.ok),
      listInsert_last_ok _ _ (show (σ.malloc.2.setPcb p _).mem.AllOk from h.ok.malloc)]
  rw [if_neg (not_not.2 hrc)] at hs
  exact h.block (.refl h.ok) hsleep hs

theorem sysTtyRead (h : σ.Calling p) (hs : σ.sysTtyRead p = some (o, σ')) : Moves σ σ' := by
  unfold Kernel.sysTtyRead at hs
  dsimp only at hs
  split at hs
  · exact h.ret hs
  split at hs
  · exact h.ret hs
  split at hs
  · exact h.ret hs
  split at hs
  · exact h.ret hs
  have hset : Requeues 0 σ (σ.setPcb p { σ.pcb p with
      ttyId := (σ.reg 0).toInt, buf := σ.reg 1, len := (σ.reg 2).toInt, state := .blockedR }) :=
    .of_touches (setPcb_touches_buffers (by rfl) (by rfl)) (by simp) (by simp) h.ok
  split at hs
  · rename_i hrc
    rw [ioInsert_ok hset.ok] at hrc
    exact absurd rfl hrc
  · exact h.block hset (.ioInsert hset.ok p) hs

/-- The bookkeeping of a writer that blocks. -/
theorem blockWriter {σ₁ : Kernel} (h : σ.Calling p) (h₁ : Requeues 0 σ σ₁) {k : KernelContext}
    {after : Kernel → Option (Outcome × Kernel)}
    (hs : (if (σ₁.blockWriter p).1 ≠ 0 then some (.ret error, (σ₁.blockWriter p).2)
      else (σ₁.blockWriter p).2.block k after) = some (o, σ')) : Moves σ σ' := by
  have hset : Requeues 0 σ₁ (σ₁.setPcb p { σ₁.pcb p with
      ttyId := (σ₁.reg 0).toInt, state := .blockedW }) :=
    .of_touches (setPcb_touches (by rfl) (by rfl) (by rfl) (by rfl)) (by simp) (by simp) h₁.ok
  unfold Kernel.blockWriter at hs
  split at hs
  · rename_i hrc
    rw [ioInsert_ok hset.ok] at hrc
    exact absurd rfl hrc
  · exact h.block ((h₁.trans hset).congr (add_zero 0)) (.ioInsert hset.ok p) hs

theorem ttyWriteLoop (h : σ.Calling p) {n : ℕ} {ttyId remainBytes : Int}
    (hs : ttyWriteLoop n σ p ttyId remainBytes = some (o, σ')) : Moves σ σ' := by
  cases n with
  | zero => exact absurd hs (by simp [Kernel.ttyWriteLoop])
  | succ n =>
      unfold Kernel.ttyWriteLoop at hs
      dsimp only at hs
      split at hs
      · exact h.ret hs
      split at hs
      swap
      · exact absurd hs (by simp)
      split at hs
      · exact h.blockWriter (.refl h.ok) hs
      · obtain ⟨bytes, -, hs⟩ := Option.bind_eq_some_iff.1 hs
        have hsend := ttyTransmit_touches σ ttyId bytes
        exact h.blockWriter (.of_touches hsend (by simp) (by simp) h.ok) hs

theorem sysTtyWrite (h : σ.Calling p) (hs : σ.sysTtyWrite p = some (o, σ')) : Moves σ σ' := by
  unfold Kernel.sysTtyWrite at hs
  dsimp only at hs
  split at hs
  · exact h.ret hs
  split at hs
  · exact h.ret hs
  split at hs
  · exact h.ret hs
  split at hs
  · exact h.ret hs
  · exact h.ttyWriteLoop hs

theorem pipeReadLoop (h : σ.Calling p) {a : ℕ} {pipeId : Int} {buf : Word} {len : Int}
    {exist : Bool} (hs : σ.pipeReadLoop p a pipeId buf len exist = some (o, σ')) :
    Moves σ σ' := by
  unfold Kernel.pipeReadLoop at hs
  split at hs
  · split at hs
    · exact h.block (.refl h.ok) (.pipeWaitInsert h.ok ‹_› p) hs
    · exact .of_requeues (.takeBytes h.ok ‹_› hs)
  · exact absurd hs (by simp)

theorem sysPipeReadResume (h : σ.Calling p) {a : ℕ} {pipeId : Int} {buf : Word} {len : Int}
    {exist : Bool} (hs : σ.sysPipeReadResume p a pipeId buf len exist = some (o, σ')) :
    Moves σ σ' := by
  unfold Kernel.sysPipeReadResume at hs
  dsimp only at hs
  split at hs
  · exact h.pipeReadLoop hs
  · exact h.ret hs

theorem sysPipeRead (h : σ.Calling p) (hs : σ.sysPipeRead p = some (o, σ')) : Moves σ σ' := by
  unfold Kernel.sysPipeRead at hs
  dsimp only at hs
  split at hs
  · exact h.ret hs
  split at hs
  · exact h.ret hs
  split at hs
  · exact h.ret hs
  split at hs
  · exact h.ret hs
  · exact h.pipeReadLoop hs

theorem acquireLoop (h : σ.Calling p) {via : Option Int} {a : ℕ} {lockId : Int} {exist : Bool}
    (hs : σ.acquireLoop p via a lockId exist = some (o, σ')) : Moves σ σ' := by
  unfold Kernel.acquireLoop at hs
  dsimp only at hs
  split at hs
  · split at hs
    · exact h.block (.refl h.ok) (.lockWaitInsert h.ok ‹_› p) hs
    · exact .ret (.of_requeues (.writeLock h.ok (by rfl))) hs
  · exact absurd hs (by simp)

theorem sysAcquireResume (h : σ.Calling p) {via : Option Int} {a : ℕ} {lockId : Int}
    {exist : Bool} (hs : σ.sysAcquireResume p via a lockId exist = some (o, σ')) :
    Moves σ σ' := by
  unfold Kernel.sysAcquireResume at hs
  dsimp only at hs
  split at hs
  · exact h.acquireLoop hs
  · exact h.ret hs

theorem sysAcquire (h : σ.Calling p) {via : Option Int} {id : Int}
    (hs : σ.sysAcquire p via id = some (o, σ')) : Moves σ σ' := by
  unfold Kernel.sysAcquire at hs
  dsimp only at hs
  split at hs
  · exact h.ret hs
  split at hs
  · exact h.ret hs
  · exact h.acquireLoop hs

theorem sysCvarWaitResume (h : σ.Calling p) {cvarId lockId : Int}
    (hs : σ.sysCvarWaitResume p cvarId lockId = some (o, σ')) : Moves σ σ' := by
  unfold Kernel.sysCvarWaitResume at hs
  split at hs
  · exact h.sysAcquire hs
  · exact h.ret hs

theorem sysCvarWait (h : σ.Calling p) (hs : σ.sysCvarWait p = some (o, σ')) :
    Moves σ σ' := by
  unfold Kernel.sysCvarWait at hs
  dsimp only at hs
  have hrel := Requeues.sysRelease h.ok p (σ.reg 1).toInt
  split at hs
  · exact .ret (.of_requeues hrel) hs
  split at hs
  · exact .ret (.of_requeues hrel) hs
  · rename_i a hfind
    exact h.block hrel (.cvarWaitInsert hrel.ok (Table.mem_of_find? hfind) p) hs

theorem sysCustom2 (h : σ.Calling p) (hs : σ.sysCustom2 p = some (o, σ')) : Moves σ σ' := by
  unfold Kernel.sysCustom2 at hs
  obtain ⟨a, hfind, hs⟩ := Option.bind_eq_some_iff.1 hs
  have ha := Table.mem_of_find? hfind
  have hsem := Requeues.writeSem (a := a)
    (x := { σ.sems.cell a with count := (σ.sems.cell a).count - 1 }) h.ok rfl
  dsimp only at hs
  split at hs
  · exact h.block hsem (.semWaitInsert hsem.ok (by exact ha) p) hs
  · exact .ret (.of_requeues hsem) hs

/-! ## All of them -/

theorem sysCall {c : Call} (h : σ.Calling p) (hf : c ≠ .fork) (he : c ≠ .exit)
    (hr : c ≠ .reclaim) (hs : σ.sysCall p c = some (o, σ')) : Moves σ σ' := by
  cases c with
  | brk => exact .of_touches (sysBrk_touches hs) (by simp)
  | fork => exact absurd rfl hf
  | exec => exact .of_touches (sysExec_touches hs) (by simp)
  | exit => exact absurd rfl he
  | wait => exact h.sysWait hs
  | delay => exact h.sysDelay hs
  | getpid => exact h.ret hs
  | ttyRead => exact h.sysTtyRead hs
  | ttyWrite => exact h.sysTtyWrite hs
  | pipeInit => exact .of_touches (sysPipeInit_touches (p := p) hs) (by simp)
  | pipeRead => exact h.sysPipeRead hs
  | pipeWrite => exact .of_requeues (.sysPipeWrite h.ok hs)
  | lockInit => exact .of_touches (sysLockInit_touches (p := p) hs) (by simp)
  | lockAcquire => exact h.sysAcquire (show σ.sysAcquire p none 0 = _ from hs)
  | lockRelease => exact .ret (.of_requeues (.sysRelease h.ok p _)) hs
  | cvarInit => exact .of_touches (sysCvarInit_touches (p := p) hs) (by simp)
  | cvarSignal => exact .of_requeues (.sysCvarSignal (p := p) h.ok hs)
  | cvarBroadcast => exact .of_requeues (.sysCvarBroadcast (p := p) h.ok hs)
  | cvarWait => exact h.sysCvarWait hs
  | reclaim => exact absurd rfl hr
  | custom0 => exact .of_requeues (.sysCustom0 (p := p) h.ok hs)
  | custom1 => exact .of_requeues (.sysCustom1 (p := p) h.ok hs)
  | custom2 => exact h.sysCustom2 hs

theorem resumeCall {k : KernelContext} (h : σ.Calling p)
    (hs : σ.resumeCall p k = some (o, σ')) : Moves σ σ' := by
  cases k with
  | kernelStart => exact .ret (.of_touches (startUser_touches σ p) (by simp)) hs
  | preempted => exact .ret (.of_touches (returnUser_touches σ) (by simp)) hs
  | wait s i => exact .of_touches (sysWaitResume_touches hs) (by simp)
  | delay => exact h.ret hs
  | ttyRead t => exact .of_touches (sysTtyReadResume_touches hs) (by simp)
  | ttyBusy t r => exact h.ttyWriteLoop hs
  | ttySent t r => exact h.ttyWriteLoop hs
  | pipeRead a i b n e => exact h.sysPipeReadResume hs
  | acquire v a x e => exact h.sysAcquireResume hs
  | cvarWait a c x => exact h.sysCvarWaitResume hs
  | semWait => exact h.ret hs

end Calling

end Kernel

end Yalnix
