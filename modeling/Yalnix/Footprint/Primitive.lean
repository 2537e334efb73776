import Yalnix.Footprint.View

/-!
# Footprints of the operations that kernel calls are made of

First come record updates, grouped by the fields they write; then one lemma for
each operation of the queues, of the scheduler and of user memory.
-/

namespace Yalnix

/-- `list_insert` changes the memory by a call of `malloc` at most. -/
theorem refill_listInsert {α : Type} (l : List α) (location : Int) (data : α) (m : Mem)
    (s : Pid → Space) : Refill (m, s) ((listInsert l location data m).2.2, s) := by
  unfold listInsert
  split
  · exact .refl _
  · dsimp only
    split <;> exact .malloc (.refl _)

namespace Touches

variable {σ : Kernel}

/-! ## Record updates -/

/-- Fields that no view shows. -/
theorem hidden (userMode : Bool) (world : World) :
    Touches [] σ { σ with userMode := userMode, world := world } := by
  refine ⟨fun v _ => ?_⟩
  cases v <;> simp [View.Same, Kernel.queued, Kernel.blocked, Refill.refl]

/-- What physical memory holds. -/
theorem memory (phys : ℕ → ℕ → Byte) : Touches [.memory] σ { σ with phys := phys } := by
  refine ⟨fun v hv => ?_⟩
  cases v with
  | memory => simp at hv
  | _ => simp [View.Same, Kernel.queued, Kernel.blocked, Refill.refl]

/-- What has been received from the terminals. -/
theorem received (receive : Int → ℕ → Byte) (stringLen : ℕ) :
    Touches [.lines] σ { σ with receive := receive, stringLen := stringLen } := by
  refine ⟨fun v hv => ?_⟩
  cases v with
  | lines => simp at hv
  | _ => simp [View.Same, Kernel.queued, Kernel.blocked, Refill.refl]

/-- What user code runs with. -/
theorem registers (uContext : UserContext) (ptbr1 : Option Pid) (userMode : Bool) :
    Touches [.registers] σ { σ with
      uContext := uContext, ptbr1 := ptbr1, userMode := userMode } := by
  refine ⟨fun v hv => ?_⟩
  cases v with
  | registers => simp at hv
  | _ => simp [View.Same, Kernel.queued, Kernel.blocked, Refill.refl]

/-- The memory, by refills. -/
theorem mem {m : Mem} (h : Refill (σ.mem, σ.space) (m, σ.space)) :
    Touches [] σ { σ with mem := m } := by
  refine ⟨fun v _ => ?_⟩
  cases v with
  | frames => exact h
  | _ => simp [View.Same, Kernel.queued, Kernel.blocked]

/-- The list of the processes that are ready. -/
theorem ready {m : Mem} (readyQueue : List Pid) (readied : List Pid)
    (h : Refill (σ.mem, σ.space) (m, σ.space)) :
    Touches [.queues] σ { σ with
      mem := m, readyQueue := readyQueue, readied := readied } := by
  refine ⟨fun v hv => ?_⟩
  cases v with
  | frames => exact h
  | queues => simp at hv
  | _ => simp [View.Same]

/-- The list of the processes that sleep. -/
theorem sleepers {m : Mem} (sleepList : List SleepInfo)
    (h : Refill (σ.mem, σ.space) (m, σ.space)) :
    Touches [.queues, .sleepers] σ { σ with mem := m, sleepList := sleepList } := by
  refine ⟨fun v hv => ?_⟩
  cases v with
  | frames => exact h
  | queues => simp at hv
  | sleepers => simp at hv
  | _ => simp [View.Same]

/-- The terminals and the processes that wait for them. -/
theorem terminals {m : Mem} (ioList : List Pid) (busyTerminal : Int → Bool)
    (transmitted : List (Int × List Byte)) (h : Refill (σ.mem, σ.space) (m, σ.space)) :
    Touches [.queues, .terminals] σ { σ with
      mem := m, ioList := ioList, busyTerminal := busyTerminal, transmitted := transmitted } := by
  refine ⟨fun v hv => ?_⟩
  cases v with
  | frames => exact h
  | queues => simp at hv
  | terminals => simp at hv
  | _ => simp [View.Same]

/-- What a terminal does, without the processes that wait for it. -/
theorem terminal (busyTerminal : Int → Bool) (transmitted : List (Int × List Byte)) :
    Touches [.terminals] σ { σ with
      busyTerminal := busyTerminal, transmitted := transmitted } := by
  refine ⟨fun v hv => ?_⟩
  cases v with
  | terminals => simp at hv
  | _ => simp [View.Same, Kernel.queued, Kernel.blocked, Refill.refl]

/-- The waiting list and contents of a pipe. -/
theorem pipe {a : ℕ} {x : PipeInfo} (h : x.pipeid = (σ.pipes.cell a).pipeid) :
    Touches [.queues, .pipes] σ { σ with pipes := σ.pipes.write a x } := by
  refine ⟨fun v hv => ?_⟩
  cases v with
  | queues => simp at hv
  | pipes => simp at hv
  | objects =>
      refine ⟨rfl, ⟨rfl, fun b => ?_⟩, ⟨rfl, fun _ => rfl⟩, ⟨rfl, fun _ => rfl⟩⟩
      exact Table.cell_write_congr PipeInfo.pipeid h b
  | _ => simp [View.Same, Refill.refl]

/-- The waiting list of a lock. -/
theorem lockQueue {a : ℕ} {x : LockInfo} (hid : x.lockid = (σ.locks.cell a).lockid)
    (hlocked : x.locked = (σ.locks.cell a).locked) (hpid : x.pid = (σ.locks.cell a).pid) :
    Touches [.queues, .lockTable] σ { σ with locks := σ.locks.write a x } := by
  refine ⟨fun v hv => ?_⟩
  cases v with
  | queues => simp at hv
  | lockTable => simp at hv
  | objects =>
      refine ⟨rfl, ⟨rfl, fun _ => rfl⟩, ⟨rfl, fun b => ?_⟩, ⟨rfl, fun _ => rfl⟩⟩
      exact Table.cell_write_congr LockInfo.lockid hid b
  | locks =>
      exact ⟨rfl, fun b => ⟨Table.cell_write_congr LockInfo.lockid hid b,
        Table.cell_write_congr LockInfo.locked hlocked b,
        Table.cell_write_congr LockInfo.pid hpid b⟩⟩
  | _ => simp [View.Same, Refill.refl]

/-- Who holds a lock, and its waiting list. -/
theorem lock {a : ℕ} {x : LockInfo} (hid : x.lockid = (σ.locks.cell a).lockid) :
    Touches [.queues, .locks, .lockTable] σ { σ with locks := σ.locks.write a x } := by
  refine ⟨fun v hv => ?_⟩
  cases v with
  | queues => simp at hv
  | lockTable => simp at hv
  | locks => simp at hv
  | objects =>
      refine ⟨rfl, ⟨rfl, fun _ => rfl⟩, ⟨rfl, fun b => ?_⟩, ⟨rfl, fun _ => rfl⟩⟩
      exact Table.cell_write_congr LockInfo.lockid hid b
  | _ => simp [View.Same, Refill.refl]

/-- The waiting list of a cvar. -/
theorem cvar {a : ℕ} {x : CvarInfo} (h : x.cvarid = (σ.cvars.cell a).cvarid) :
    Touches [.queues, .cvars] σ { σ with cvars := σ.cvars.write a x } := by
  refine ⟨fun v hv => ?_⟩
  cases v with
  | queues => simp at hv
  | cvars => simp at hv
  | objects =>
      refine ⟨rfl, ⟨rfl, fun _ => rfl⟩, ⟨rfl, fun _ => rfl⟩, ⟨rfl, fun b => ?_⟩⟩
      exact Table.cell_write_congr CvarInfo.cvarid h b
  | _ => simp [View.Same, Refill.refl]

/-- The semaphores. -/
theorem semaphores (sems : Table Semaphore) :
    Touches [.queues, .sems] σ { σ with sems := sems } := by
  refine ⟨fun v hv => ?_⟩
  cases v with
  | queues => simp at hv
  | sems => simp at hv
  | _ => simp [View.Same, Refill.refl]

/-- The id of the next semaphore. -/
theorem nextSem (nextSem : Int) : Touches [.sems] σ { σ with nextSem := nextSem } := by
  refine ⟨fun v hv => ?_⟩
  cases v with
  | sems => simp at hv
  | _ => simp [View.Same, Kernel.queued, Kernel.blocked, Refill.refl]

end Touches

namespace Kernel

variable {σ σ' : Kernel}

/-! ## Memory -/

theorem malloc_touches (σ : Kernel) : Touches [] σ σ.malloc.2 :=
  .mem (.malloc (.refl _))

theorem copyOut_touches {a : Word} {bs : List Byte} (h : σ.copyOut a bs = some σ') :
    Touches [.memory] σ σ' := by
  obtain ⟨phys, -, rfl⟩ := Option.map_eq_some_iff.1 h
  exact .memory phys

theorem storeInt_touches {a w : Word} (h : σ.storeInt a w = some σ') : Touches [.memory] σ σ' :=
  copyOut_touches h

/-- A PCB that is written with the same value of a field. -/
theorem field_update {α : Type} {pcb : Pid → Pcb} {p : Pid} {x : Pcb} (f : Pcb → α)
    (h : f x = f (pcb p)) (q : Pid) : f (Function.update pcb p x q) = f (pcb q) := by
  by_cases hq : q = p
  · subst hq
    simpa using h
  · simp [hq]

/-- A PCB that is written without a change of what it waits for. -/
theorem states_update {pcb : Pid → Pcb} {p : Pid} {x : Pcb} (hs : x.state = (pcb p).state)
    (ht : x.ttyId = (pcb p).ttyId) (q : Pid) :
    (Function.update pcb p x q).state = (pcb q).state ∧
      (Function.update pcb p x q).ttyId = (pcb q).ttyId :=
  ⟨field_update Pcb.state hs q, field_update Pcb.ttyId ht q⟩

/-- A PCB that is written with the same buffer. -/
theorem buffers_update {pcb : Pid → Pcb} {p : Pid} {x : Pcb} (hb : x.buf = (pcb p).buf)
    (hl : x.len = (pcb p).len) (q : Pid) :
    (Function.update pcb p x q).buf = (pcb q).buf ∧
      (Function.update pcb p x q).len = (pcb q).len :=
  ⟨field_update Pcb.buf hb q, field_update Pcb.len hl q⟩

/-- A write to a PCB that leaves both its contexts as they were. -/
theorem setPcb_touches_buffers {p : Pid} {x : Pcb} (h : x.kctxt = (σ.pcb p).kctxt)
    (hu : x.uctxt = (σ.pcb p).uctxt) : Touches [.states, .buffers] σ (σ.setPcb p x) := by
  refine ⟨fun v hv => ?_⟩
  cases v with
  | contexts => exact ⟨rfl, field_update Pcb.kctxt h⟩
  | users => exact field_update Pcb.uctxt hu
  | states => simp at hv
  | buffers => simp at hv
  | _ => simp [View.Same, queued, Kernel.blocked, setPcb, Refill.refl]

/-- A write to a PCB that changes what it waits for at most. -/
theorem setPcb_touches {p : Pid} {x : Pcb} (h : x.kctxt = (σ.pcb p).kctxt)
    (hu : x.uctxt = (σ.pcb p).uctxt) (hb : x.buf = (σ.pcb p).buf)
    (hl : x.len = (σ.pcb p).len) : Touches [.states] σ (σ.setPcb p x) := by
  refine ⟨fun v hv => ?_⟩
  cases v with
  | contexts => exact ⟨rfl, field_update Pcb.kctxt h⟩
  | users => exact field_update Pcb.uctxt hu
  | buffers => exact buffers_update hb hl
  | states => simp at hv
  | _ => simp [View.Same, queued, Kernel.blocked, setPcb, Refill.refl]

/-- A write to a PCB that changes its user context at most. -/
theorem setPcb_touches_users {p : Pid} {x : Pcb} (h : x.kctxt = (σ.pcb p).kctxt)
    (hs : x.state = (σ.pcb p).state) (ht : x.ttyId = (σ.pcb p).ttyId)
    (hb : x.buf = (σ.pcb p).buf) (hl : x.len = (σ.pcb p).len) :
    Touches [.users] σ (σ.setPcb p x) := by
  refine ⟨fun v hv => ?_⟩
  cases v with
  | buffers => exact buffers_update hb hl
  | contexts => exact ⟨rfl, field_update Pcb.kctxt h⟩
  | states => exact states_update hs ht
  | users => simp at hv
  | _ => simp [View.Same, queued, Kernel.blocked, setPcb, Refill.refl]

/-- A write to a PCB that changes its buffer at most. -/
theorem setPcb_touches_buffer {p : Pid} {x : Pcb} (h : x.kctxt = (σ.pcb p).kctxt)
    (hu : x.uctxt = (σ.pcb p).uctxt) (hs : x.state = (σ.pcb p).state)
    (ht : x.ttyId = (σ.pcb p).ttyId) : Touches [.buffers] σ (σ.setPcb p x) := by
  refine ⟨fun v hb => ?_⟩
  by_cases hv : v = .states
  · subst hv
    exact states_update hs ht
  · exact (setPcb_touches_buffers h hu).same v (by simpa [hv] using hb)

/-! ## Queues -/

theorem readyInsert_touches (σ : Kernel) (p : Pid) : Touches [.queues] σ (σ.readyInsert p).2 :=
  .ready _ _ (refill_listInsert ..)

theorem ioInsert_touches (σ : Kernel) (p : Pid) :
    Touches [.queues, .terminals] σ (σ.ioInsert p).2 :=
  .terminals _ _ _ (refill_listInsert ..)

theorem waitInsert_touches (σ : Kernel) (p : Pid) :
    Touches [.queues, .tree] σ (σ.waitInsert p).2 := by
  refine ⟨fun v hv => ?_⟩
  cases v with
  | frames => exact refill_listInsert ..
  | queues => simp at hv
  | tree => simp at hv
  | _ => simp [View.Same, waitInsert]

theorem insertSleepList_touches (σ : Kernel) (p : Pid) (clockTicks : Int) :
    Touches [.queues, .states, .sleepers] σ (σ.insertSleepList p clockTicks).2 := by
  unfold insertSleepList
  dsimp only
  split
  · refine (malloc_touches σ).after ?_
    exact ((setPcb_touches (by rfl) (by rfl) (by rfl) (by rfl)).seq
      (.sleepers _ (refill_listInsert ..))).mono (by simp)
  · exact (malloc_touches σ).mono (by simp)

theorem insertDeadList_touches (σ : Kernel) (ppid pid : Pid) (status : Word) :
    Touches [.tree] σ (σ.insertDeadList ppid pid status).2 := by
  unfold insertDeadList
  dsimp only
  split
  · refine (malloc_touches σ).after ?_
    refine ⟨fun v hv => ?_⟩
    cases v with
    | frames => exact refill_listInsert ..
    | tree => simp at hv
    | _ => simp [View.Same, queued, Kernel.blocked]
  · exact (malloc_touches σ).mono (by simp)

/-- What the loop of `update_sleep_list` comes to: the sleepers that remain, and the kernel
after the others have been made ready. -/
def tickSleepers : List SleepInfo → Kernel → List SleepInfo × Kernel
  | [], σ => ([], σ)
  | s :: ss, σ =>
      let ticksLeft := s.ticksLeft - 1
      if ticksLeft ≤ 0 then
        tickSleepers ss ((σ.setPcb s.pcb { σ.pcb s.pcb with state := .ready }).readyInsert s.pcb).2
      else
        let r := tickSleepers ss σ
        ({ s with ticksLeft := ticksLeft } :: r.1, r.2)

/-- Waking sleepers does not depend on `sleep_list`. -/
theorem tickSleepers_with (l ss : List SleepInfo) (σ : Kernel) :
    tickSleepers ss { σ with sleepList := l } =
      ((tickSleepers ss σ).1, { (tickSleepers ss σ).2 with sleepList := l }) := by
  induction ss generalizing σ with
  | nil => rfl
  | cons s ss ih =>
      unfold tickSleepers
      dsimp only
      split
      · exact ih ((σ.setPcb s.pcb { σ.pcb s.pcb with state := .ready }).readyInsert s.pcb).2
      · rw [ih σ]

/-- With `curr` at node `i`, which the nodes `done` come before, a sleeper whose time is up is
taken out where it is. -/
theorem listRemove_at (done rest : List SleepInfo) (s : SleepInfo) :
    listRemove (done ++ s :: rest) (done.length + 1 : ℕ) = some (s, done ++ rest) := by
  have hloc : ¬(((done.length + 1 : ℕ) : Int) > (done ++ s :: rest).length ∨
      ((done.length + 1 : ℕ) : Int) < 1) := by
    rw [List.length_append, List.length_cons]
    omega
  have hidx : (((done.length + 1 : ℕ) : Int) - 1).toNat = done.length := by omega
  rw [listRemove, if_neg hloc, hidx, List.eraseIdx_append_of_length_le (by omega)]
  simp

theorem sleepLoop_eq (done ss : List SleepInfo) (σ : Kernel)
    (h : σ.sleepList = done ++ ss) : sleepLoop ss (done.length + 1) σ =
      { (tickSleepers ss σ).2 with sleepList := done ++ (tickSleepers ss σ).1 } := by
  induction ss generalizing done σ with
  | nil =>
      rw [List.append_nil] at h
      simp [sleepLoop, tickSleepers, ← h]
  | cons s ss ih =>
      have hset : σ.sleepList.set done.length { s with ticksLeft := s.ticksLeft - 1 } =
          done ++ { s with ticksLeft := s.ticksLeft - 1 } :: ss := by
        rw [h, List.set_append_right _ _ (le_refl _)]
        simp
      unfold sleepLoop tickSleepers
      dsimp only
      rw [Nat.add_sub_cancel, hset]
      split
      · have hremove := listRemove_at done ss { s with ticksLeft := s.ticksLeft - 1 }
        have hrest := ih done { ((σ.setPcb s.pcb { σ.pcb s.pcb with state := .ready }).readyInsert
          s.pcb).2 with sleepList := done ++ ss } rfl
        rw [tickSleepers_with] at hrest
        split
        · rename_i hnone
          exact absurd (hnone.symm.trans hremove) (by simp)
        · rename_i x l hl
          obtain ⟨-, rfl⟩ := Prod.mk.inj (Option.some.inj (hl.symm.trans hremove))
          exact hrest
      · have hrest := ih (done ++ [{ s with ticksLeft := s.ticksLeft - 1 }])
          { σ with sleepList := done ++ { s with ticksLeft := s.ticksLeft - 1 } :: ss } (by simp)
        rw [tickSleepers_with, List.length_append, List.append_assoc] at hrest
        exact hrest

theorem updateSleepList_eq (σ : Kernel) : σ.updateSleepList =
    { (tickSleepers σ.sleepList σ).2 with sleepList := (tickSleepers σ.sleepList σ).1 } :=
  sleepLoop_eq [] σ.sleepList σ rfl

theorem tickSleepers_touches (l : List SleepInfo) (σ : Kernel) :
    Touches [.queues, .states] σ (tickSleepers l σ).2 := by
  induction l generalizing σ with
  | nil => exact .refl _ σ
  | cons s l ih =>
      unfold tickSleepers
      dsimp only
      split
      · exact (((setPcb_touches (by rfl) (by rfl) (by rfl) (by rfl)).seq
          (readyInsert_touches _ _)).mono (by simp)).trans (ih _)
      · exact ih σ

theorem updateSleepList_touches (σ : Kernel) :
    Touches [.queues, .states, .sleepers] σ σ.updateSleepList := by
  rw [updateSleepList_eq]
  exact ((tickSleepers_touches _ σ).seq (.sleepers _ (.refl _))).mono (by simp)

theorem wakeWaiting_touches (j : ℕ) (l : List Pid) (σ : Kernel) :
    Touches [.queues] σ (wakeWaiting j l σ).2 := by
  induction l generalizing j σ with
  | nil => exact .refl _ σ
  | cons p l ih =>
      unfold wakeWaiting
      split
      · exact (readyInsert_touches σ p).trans (ih _ _)
      · exact .refl _ σ

theorem wakeAll_touches (l : List Pid) (σ : Kernel) :
    Touches [.queues] σ (wakeAll l σ).2.2 := by
  induction l generalizing σ with
  | nil => exact .refl _ σ
  | cons p l ih =>
      unfold wakeAll
      dsimp only
      split
      · exact readyInsert_touches σ p
      · exact (readyInsert_touches σ p).trans (ih _)

/-- Waking sleepers leaves `sleep_list` to its caller. -/
theorem tickSleepers_sleepList (l : List SleepInfo) (σ : Kernel) :
    (tickSleepers l σ).2.sleepList = σ.sleepList := by
  induction l generalizing σ with
  | nil => rfl
  | cons s l ih =>
      unfold tickSleepers
      dsimp only
      split
      · exact ih _
      · exact ih σ

/-- Waking all leaves the cvars to its caller. -/
theorem wakeAll_cvars (l : List Pid) (σ : Kernel) : (wakeAll l σ).2.2.cvars = σ.cvars := by
  induction l generalizing σ with
  | nil => rfl
  | cons p l ih =>
      unfold wakeAll
      dsimp only
      split
      · rfl
      · exact ih _

/-! ## Scheduling -/

theorem nextReady_touches (σ : Kernel) : Touches [.queues] σ σ.nextReady.2 := by
  unfold nextReady
  cases listRemove σ.readyQueue 1 with
  | none => exact .refl _ σ
  | some r =>
      obtain ⟨next, q⟩ := r
      dsimp only
      have hq : Touches [.queues] σ { σ with readyQueue := q } := .ready q _ (.refl _)
      split
      · have hi := hq.trans (readyInsert_touches { σ with readyQueue := q } next)
        cases listRemove (readyInsert { σ with readyQueue := q } next).2.readyQueue 1 with
        | none => exact hi
        | some r => exact hi.trans (.ready _ _ (.refl _))
      · exact hq

theorem initProcKernel_touches {p : Pid} (h : σ.initProcKernel p = some σ')
    (hp : ((σ.space p).kStackPt 0).pfn = 0) : Touches [.contexts] σ σ' := by
  obtain ⟨r, hr, rfl⟩ := Option.map_eq_some_iff.1 h
  refine ⟨fun v hv => ?_⟩
  cases v with
  | frames => exact .stack p (.refl _) hp hr
  | contexts => simp at hv
  | states => exact states_update rfl rfl
  | buffers => exact buffers_update rfl rfl
  | users => exact field_update Pcb.uctxt rfl
  | _ => simp [View.Same, queued, Kernel.blocked]

theorem saveUser_touches (σ : Kernel) (old : Option Pid) :
    Touches [.users] σ (σ.saveUser old) := by
  cases old with
  | none => exact .refl _ σ
  | some o => exact setPcb_touches_users rfl rfl rfl rfl rfl

theorem saveKernel_touches (σ : Kernel) (k : KernelContext) (old : Option Pid) :
    Touches [.contexts] σ (σ.saveKernel k old) := by
  cases old with
  | none => exact .refl _ σ
  | some o =>
      refine ⟨fun v hv => ?_⟩
      cases v with
      | contexts => simp at hv
      | states => exact states_update rfl rfl
      | buffers => exact buffers_update rfl rfl
      | users => exact field_update Pcb.uctxt rfl
      | _ => simp [View.Same, queued, Kernel.blocked, saveKernel, setPcb, Refill.refl]

theorem contextSwitch_touches {old : Option Pid} {new : Pid} {k : KernelContext}
    (h : σ.contextSwitch old new k = some σ') : Touches [.queues, .contexts, .users] σ σ' := by
  unfold contextSwitch at h
  split at h
  · exact absurd h (by simp)
  · have hnew : Touches [.queues, .contexts, .users] σ { σ with
        activeProc := some new, dispatched := σ.dispatched ++ [new] } := by
      refine ⟨fun v hv => ?_⟩
      cases v with
      | queues => simp at hv
      | contexts => simp at hv
      | _ => simp [View.Same, Refill.refl]
    have hsave := (saveUser_touches { σ with
        activeProc := some new, dispatched := σ.dispatched ++ [new] } old).mono
      (w := [.queues, .contexts, .users]) (by simp)
    obtain ⟨τ, hτ, rfl⟩ := Option.map_eq_some_iff.1 h
    have hinit : Touches [.contexts] (saveUser { σ with
        activeProc := some new, dispatched := σ.dispatched ++ [new] } old) τ := by
      split at hτ
      · exact initProcKernel_touches hτ ‹_›
      · obtain rfl := Option.some.inj hτ
        exact .refl _ _
    have hend : Touches [.contexts] τ { τ.saveKernel k old with userMode := false } :=
      (saveKernel_touches τ k old).trans ((Touches.hidden ..).mono (List.nil_subset _))
    exact (hnew.trans hsave).trans ((hinit.trans hend).mono (by simp))

theorem normalSchedule_touches {k : KernelContext} {r : Sched × Kernel}
    (h : σ.normalSchedule k = some r) : Touches [.queues, .contexts, .users] σ r.2 := by
  unfold normalSchedule at h
  split at h
  · have hnext := (nextReady_touches σ).mono (w := [.queues, .contexts, .users]) (by simp)
    cases hn : σ.nextReady with
    | mk next τ =>
        rw [hn] at h hnext
        cases next with
        | none =>
            obtain rfl := Option.some.inj h
            exact hnext
        | some next =>
            obtain ⟨τ', hτ, rfl⟩ := Option.map_eq_some_iff.1 h
            exact hnext.trans (contextSwitch_touches hτ)
  · obtain rfl := Option.some.inj h
    refine ⟨fun v hv => ?_⟩
    cases v with
    | queues => simp at hv
    | _ => simp [View.Same, Refill.refl]

theorem doScheduler_touches {r : Sched × Kernel} (h : σ.doScheduler = some r) :
    Touches [.queues, .contexts, .users] σ r.2 := by
  unfold doScheduler at h
  split at h
  · have hnext := ((readyInsert_touches σ (σ.activeProc.getD nullProc)).trans
      (nextReady_touches _)).mono (w := [.queues, .contexts, .users]) (by simp)
    dsimp only at h
    cases hn : ((σ.readyInsert (σ.activeProc.getD nullProc)).2).nextReady with
    | mk next τ =>
        rw [hn] at h hnext
        cases next with
        | none =>
            obtain rfl := Option.some.inj h
            exact hnext
        | some next =>
            obtain ⟨τ', hτ, rfl⟩ := Option.map_eq_some_iff.1 h
            exact hnext.trans (contextSwitch_touches hτ)
  · obtain rfl := Option.some.inj h
    exact .refl _ _

/-- When `normal_schedule` returns to its caller it has not switched. -/
theorem normalSchedule_returned {k : KernelContext} {rc : Int} {τ : Kernel}
    (h : σ.normalSchedule k = some (.returned rc, τ)) : Touches [.queues] σ τ := by
  unfold normalSchedule at h
  split at h
  · have hnext := nextReady_touches σ
    cases hn : σ.nextReady with
    | mk next τ' =>
        rw [hn] at h hnext
        cases next with
        | none => exact .ret hnext h
        | some next => simp at h
  · obtain ⟨-, rfl⟩ := Prod.mk.inj (Option.some.inj h)
    refine ⟨fun v hv => ?_⟩
    cases v with
    | queues => simp at hv
    | _ => simp [View.Same, Refill.refl]

/-- A blocking call ends in `normal_schedule`, or goes on when that returns 0 at once. -/
theorem block_cases {k : KernelContext} {after : Kernel → Option (Outcome × Kernel)}
    {o : Outcome} (h : σ.block k after = some (o, σ')) :
    Touches [.queues, .contexts, .users] σ σ' ∨
      ∃ τ, Touches [.queues] σ τ ∧ after τ = some (o, σ') := by
  obtain ⟨⟨s, τ⟩, hs, h⟩ := Option.bind_eq_some_iff.1 h
  have hτ := normalSchedule_touches hs
  cases s with
  | switched => exact .inl (.ret hτ h)
  | returned rc =>
      dsimp only at h
      split at h
      · exact .inl (.ret hτ h)
      · exact .inr ⟨τ, normalSchedule_returned hs, h⟩

/-- A blocking call touches what `normal_schedule` touches and what follows it
does. -/
theorem block_touches {v : List View} {k : KernelContext}
    {after : Kernel → Option (Outcome × Kernel)} {o : Outcome}
    (hvs : [View.queues, .contexts, .users] ⊆ v)
    (hafter : ∀ τ o τ', Touches [.queues] σ τ → after τ = some (o, τ') → Touches v τ τ')
    (h : σ.block k after = some (o, σ')) : Touches v σ σ' := by
  rcases block_cases h with hτ | ⟨τ, hτ, h⟩
  · exact hτ.mono hvs
  · exact (hτ.mono fun w hw => hvs (by simp_all)).trans (hafter _ _ _ hτ h)

end Kernel

end Yalnix
