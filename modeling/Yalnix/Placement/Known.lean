import Yalnix.Placement.Lifecycle

/-!
# Which processes are in the queues

`Known P σ` says that the process that runs meets `P`, and so do the processes in the
queues and waiting lists, apart from the `NULL` that `do_scheduler` puts there when
nobody runs. Here no allocation has to succeed: a process gets into a queue because
it ran, because it was in another one, or because it has just been created.
-/

namespace Yalnix

/-! ## Before a switch -/

/-- The active process is the same, and `q` is queued at most `d q` times more. -/
structure Draws (d : Pid → ℕ) (σ τ : Kernel) : Prop where
  active : τ.activeProc = σ.activeProc
  queued : ∀ q, τ.queued q ≤ σ.queued q + d q

namespace Draws

variable {σ σ₁ τ : Kernel} {d e : Pid → ℕ} {p : Pid} {o : Outcome}

theorem refl (σ : Kernel) : Draws 0 σ σ := ⟨rfl, fun _ => le_rfl⟩

theorem trans (h : Draws d σ σ₁) (h' : Draws e σ₁ τ) : Draws (d + e) σ τ := by
  refine ⟨h'.active.trans h.active, fun q => ?_⟩
  have hq := h.queued q
  have hq' := h'.queued q
  rw [Pi.add_apply]
  omega

theorem mono (h : Draws d σ τ) (hle : ∀ q, d q ≤ e q) : Draws e σ τ :=
  ⟨h.active, fun q => (h.queued q).trans (Nat.add_le_add_left (hle q) _)⟩

theorem congr (h : Draws d σ τ) (hd : d = e) : Draws e σ τ := hd ▸ h

theorem of_touches {vs : List View} (h : Touches vs σ τ) (hvs : View.queues ∉ vs) :
    Draws 0 σ τ := by
  obtain ⟨hactive, -, -, -, -, hqueued⟩ := h.same .queues hvs
  exact ⟨hactive, fun q => (hqueued q).le⟩

/-! ### Insertions -/

/-- `list_insert` at the end of a list puts in `p` once, or leaves the list as it is. -/
theorem count_listInsert_last (l : List Pid) (p : Pid) (m : Mem) (q : Pid) :
    (listInsert l (l.length + 1) p m).2.1.count q ≤ l.count q + one p q := by
  rw [listInsert_last]
  split
  · rw [List.count_append, count_one]
  · exact Nat.le_add_right _ _

theorem readyInsert (σ : Kernel) (p : Pid) : Draws (one p) σ (σ.readyInsert p).2 := by
  refine ⟨rfl, fun q => ?_⟩
  have hcount := count_listInsert_last σ.readyQueue p σ.mem q
  simp only [Kernel.readyInsert, Kernel.queued, Kernel.blocked]
  omega

theorem waitInsert (σ : Kernel) (p : Pid) : Draws (one p) σ (σ.waitInsert p).2 := by
  refine ⟨rfl, fun q => ?_⟩
  have hcount := count_listInsert_last σ.waitList p σ.mem q
  simp only [Kernel.waitInsert, Kernel.queued, Kernel.blocked]
  omega

theorem ioInsert (σ : Kernel) (p : Pid) : Draws (one p) σ (σ.ioInsert p).2 := by
  refine ⟨rfl, fun q => ?_⟩
  have hcount := count_listInsert_last σ.ioList p σ.mem q
  simp only [Kernel.ioInsert, Kernel.queued, Kernel.blocked]
  omega

theorem insertSleepList (σ : Kernel) (p : Pid) (clockTicks : Int) :
    Draws (one p) σ (σ.insertSleepList p clockTicks).2 := by
  unfold Kernel.insertSleepList
  dsimp only
  split
  swap
  · exact (of_touches (Kernel.malloc_touches σ) (by simp)).mono fun q => Nat.zero_le _
  refine ⟨rfl, fun q => ?_⟩
  rw [listInsert_last]
  split
  · simp only [Kernel.queued, Kernel.blocked, Kernel.setPcb, Kernel.malloc, List.map_append,
      List.map_singleton, List.count_append, count_one]
    omega
  · exact Nat.le_add_right _ _

theorem pipeWaitInsert {a : ℕ} (ha : a ∈ σ.pipes.list) (p : Pid) :
    Draws (one p) σ (σ.pipeWaitInsert a p) := by
  refine ⟨rfl, fun q => ?_⟩
  have hcount := count_listInsert_last (σ.pipes.cell a).pipeWaitList p σ.mem q
  simp only [Kernel.pipeWaitInsert, Kernel.queued, Kernel.blocked]
  generalize (listInsert (σ.pipes.cell a).pipeWaitList _ p σ.mem).2.1 = l at hcount ⊢
  have hsum := Table.sum_write ha { σ.pipes.cell a with pipeWaitList := l }
    fun x => x.pipeWaitList.count q
  dsimp only at hsum
  omega

theorem lockWaitInsert {a : ℕ} (ha : a ∈ σ.locks.list) (p : Pid) :
    Draws (one p) σ (σ.lockWaitInsert a p) := by
  refine ⟨rfl, fun q => ?_⟩
  have hcount := count_listInsert_last (σ.locks.cell a).lockWaitList p σ.mem q
  simp only [Kernel.lockWaitInsert, Kernel.queued, Kernel.blocked]
  generalize (listInsert (σ.locks.cell a).lockWaitList _ p σ.mem).2.1 = l at hcount ⊢
  have hsum := Table.sum_write ha { σ.locks.cell a with lockWaitList := l }
    fun x => x.lockWaitList.count q
  dsimp only at hsum
  omega

theorem cvarWaitInsert {a : ℕ} (ha : a ∈ σ.cvars.list) (p : Pid) :
    Draws (one p) σ (σ.cvarWaitInsert a p) := by
  refine ⟨rfl, fun q => ?_⟩
  have hcount := count_listInsert_last (σ.cvars.cell a).cvarWaitList p σ.mem q
  simp only [Kernel.cvarWaitInsert, Kernel.queued, Kernel.blocked]
  generalize (listInsert (σ.cvars.cell a).cvarWaitList _ p σ.mem).2.1 = l at hcount ⊢
  have hsum := Table.sum_write ha { σ.cvars.cell a with cvarWaitList := l }
    fun x => x.cvarWaitList.count q
  dsimp only at hsum
  omega

theorem semWaitInsert {a : ℕ} (ha : a ∈ σ.sems.list) (p : Pid) :
    Draws (one p) σ (σ.semWaitInsert a p) := by
  refine ⟨rfl, fun q => ?_⟩
  have hcount := count_listInsert_last (σ.sems.cell a).waiting p σ.mem q
  simp only [Kernel.semWaitInsert, Kernel.queued, Kernel.blocked]
  generalize (listInsert (σ.sems.cell a).waiting _ p σ.mem).2.1 = l at hcount ⊢
  have hsum := Table.sum_write ha { σ.sems.cell a with waiting := l } fun x => x.waiting.count q
  dsimp only at hsum
  omega

/-! ### Writes that leave the waiting list as it was -/

theorem writePipe {a : ℕ} {x : PipeInfo} (hx : x.pipeWaitList = (σ.pipes.cell a).pipeWaitList) :
    Draws 0 σ { σ with pipes := σ.pipes.write a x } := by
  refine ⟨rfl, fun q => ?_⟩
  have hsum := Table.sum_write_of_eq (t := σ.pipes) (a := a) (x := x)
    (f := fun x => x.pipeWaitList.count q) (by rw [hx])
  simp only [Kernel.queued, Kernel.blocked, Pi.zero_apply]
  omega

theorem writeLock {a : ℕ} {x : LockInfo} (hx : x.lockWaitList = (σ.locks.cell a).lockWaitList) :
    Draws 0 σ { σ with locks := σ.locks.write a x } := by
  refine ⟨rfl, fun q => ?_⟩
  have hsum := Table.sum_write_of_eq (t := σ.locks) (a := a) (x := x)
    (f := fun x => x.lockWaitList.count q) (by rw [hx])
  simp only [Kernel.queued, Kernel.blocked, Pi.zero_apply]
  omega

theorem writeSem {a : ℕ} {x : Semaphore} (hx : x.waiting = (σ.sems.cell a).waiting) :
    Draws 0 σ { σ with sems := σ.sems.write a x } := by
  refine ⟨rfl, fun q => ?_⟩
  have hsum := Table.sum_write_of_eq (t := σ.sems) (a := a) (x := x)
    (f := fun x => x.waiting.count q) (by rw [hx])
  simp only [Kernel.queued, Kernel.blocked, Pi.zero_apply]
  omega

/-! ### Wake-ups -/

/-- A waiting list of the kernel loses its head `q`, which becomes ready if there is
memory for it. -/
theorem wake {σ' : Kernel} {q : Pid} (hactive : σ'.activeProc = σ.activeProc)
    (hready : σ'.readyQueue = σ.readyQueue)
    (hblocked : ∀ r, σ'.blocked r + one q r = σ.blocked r) : Draws 0 σ (σ'.readyInsert q).2 := by
  have hi := readyInsert σ' q
  refine ⟨hi.active.trans hactive, fun r => ?_⟩
  have hb := hblocked r
  have hr := hi.queued r
  have hqueue : σ'.queued r = σ.readyQueue.count r + σ'.blocked r := by
    rw [← hready]
    rfl
  change _ ≤ σ.readyQueue.count r + σ.blocked r + 0
  omega

theorem wakePipe {a : ℕ} (ha : a ∈ σ.pipes.list) : Draws 0 σ (σ.wakePipe a) := by
  unfold Kernel.wakePipe
  dsimp only
  cases hl : (σ.pipes.cell a).pipeWaitList with
  | nil => simpa using refl σ
  | cons q l =>
      rw [listRemove_cons_one]
      refine wake rfl rfl fun r => ?_
      have hsum := Table.sum_write ha { σ.pipes.cell a with pipeWaitList := l }
        fun x => x.pipeWaitList.count r
      simp only [hl, count_cons_one] at hsum
      simp only [Kernel.blocked]
      omega

theorem sysRelease (σ : Kernel) (p : Pid) (lockId : Int) :
    Draws 0 σ (σ.sysRelease p lockId).2 := by
  unfold Kernel.sysRelease
  split
  · exact refl σ
  rename_i a hfind
  have ha := Table.mem_of_find? hfind
  dsimp only
  cases hl : (σ.locks.cell a).lockWaitList with
  | nil =>
      rw [listRemove_nil]
      refine ⟨rfl, fun r => ?_⟩
      have hsum := Table.sum_write ha { σ.locks.cell a with locked := false, pid := 0 }
        fun x => x.lockWaitList.count r
      simp only [hl] at hsum
      simp only [Kernel.queued, Kernel.blocked, Pi.zero_apply]
      omega
  | cons q l =>
      rw [listRemove_cons_one]
      refine wake rfl rfl fun r => ?_
      have hsum := Table.sum_write ha { σ.locks.cell a with
        locked := false, pid := q, lockWaitList := l } fun x => x.lockWaitList.count r
      simp only [hl, count_cons_one] at hsum
      simp only [Kernel.blocked]
      omega

theorem sysCvarSignal (hs : σ.sysCvarSignal p = some (o, τ)) : Draws 0 σ τ := by
  unfold Kernel.sysCvarSignal at hs
  dsimp only at hs
  split at hs
  · exact (Prod.mk.inj (Option.some.inj hs)).2 ▸ refl σ
  split at hs
  · exact (Prod.mk.inj (Option.some.inj hs)).2 ▸ refl σ
  rename_i a hfind
  have ha := Table.mem_of_find? hfind
  cases hl : (σ.cvars.cell a).cvarWaitList with
  | nil =>
      rw [hl, listRemove_nil] at hs
      exact (Prod.mk.inj (Option.some.inj hs)).2 ▸ refl σ
  | cons q l =>
      rw [hl, listRemove_cons_one] at hs
      have hwake : Draws 0 σ (Kernel.readyInsert { σ with
          cvars := σ.cvars.write a { σ.cvars.cell a with cvarWaitList := l } } q).2 := by
        refine wake rfl rfl fun r => ?_
        have hsum := Table.sum_write ha { σ.cvars.cell a with cvarWaitList := l }
          fun x => x.cvarWaitList.count r
        simp only [hl, count_cons_one] at hsum
        simp only [Kernel.blocked]
        omega
      dsimp only at hs
      split at hs
      · exact (Prod.mk.inj (Option.some.inj hs)).2 ▸ hwake
      · exact (Prod.mk.inj (Option.some.inj hs)).2 ▸ hwake

/-- Processes of the list become ready, and the others are left in it. -/
theorem wakeAll (l : List Pid) (σ : Kernel) :
    ∃ d, Draws d σ (Kernel.wakeAll l σ).2.2 ∧
      ∀ q, d q + (Kernel.wakeAll l σ).2.1.count q ≤ l.count q := by
  induction l generalizing σ with
  | nil => exact ⟨0, refl σ, fun q => by simp [Kernel.wakeAll]⟩
  | cons p l ih =>
      have hp := readyInsert σ p
      unfold Kernel.wakeAll
      dsimp only
      split
      · refine ⟨one p, hp, fun q => ?_⟩
        rw [count_cons_one, add_comm]
      · obtain ⟨d, hd, hcount⟩ := ih (σ.readyInsert p).2
        refine ⟨_, hp.trans hd, fun q => ?_⟩
        have hq := hcount q
        rw [count_cons_one, Pi.add_apply]
        omega

theorem sysCvarBroadcast (hs : σ.sysCvarBroadcast p = some (o, τ)) : Draws 0 σ τ := by
  unfold Kernel.sysCvarBroadcast at hs
  dsimp only at hs
  split at hs
  · exact (Prod.mk.inj (Option.some.inj hs)).2 ▸ refl σ
  split at hs
  · exact (Prod.mk.inj (Option.some.inj hs)).2 ▸ refl σ
  rename_i a hfind
  have ha := Table.mem_of_find? hfind
  obtain ⟨d, hd, hcount⟩ := wakeAll (σ.cvars.cell a).cvarWaitList σ
  have hcvars := Kernel.wakeAll_cvars (σ.cvars.cell a).cvarWaitList σ
  obtain ⟨-, rfl⟩ := Prod.mk.inj (Option.some.inj hs)
  refine ⟨hd.active, fun q => ?_⟩
  have hq := hd.queued q
  have hc := hcount q
  have hsum := Table.sum_write ha { σ.cvars.cell a with
    cvarWaitList := (Kernel.wakeAll (σ.cvars.cell a).cvarWaitList σ).2.1 }
      fun x => x.cvarWaitList.count q
  simp only [hcvars, Kernel.queued, Kernel.blocked, Pi.zero_apply] at hq hsum ⊢
  omega

theorem sysCustom0 (hs : σ.sysCustom0 p = some (o, τ)) : Draws 0 σ τ := by
  unfold Kernel.sysCustom0 at hs
  dsimp only at hs
  have hmalloc : ∀ σ : Kernel, Touches [] σ σ.malloc.2 := Kernel.malloc_touches
  have hsem : Touches [.sems] σ.malloc.2 { σ.malloc.2 with nextSem := σ.nextSem + 1 } :=
    .nextSem _
  split at hs
  · exact (Prod.mk.inj (Option.some.inj hs)).2 ▸ of_touches (hmalloc σ) (by simp)
  have hhead := ((hmalloc σ).after hsem).trans ((hmalloc _).mono (by simp))
  split at hs
  · exact (Prod.mk.inj (Option.some.inj hs)).2 ▸ of_touches hhead (by simp)
  have hnode := of_touches (hhead.trans ((hmalloc _).mono (by simp))) (by simp)
  obtain ⟨-, rfl⟩ := Prod.mk.inj (Option.some.inj hs)
  split
  · refine ⟨hnode.active, fun q => (hnode.queued q).trans' (le_of_eq ?_)⟩
    simp [Kernel.queued, Kernel.blocked, Table.sum_alloc]
  · exact hnode

theorem sysCustom1 (hs : σ.sysCustom1 p = some (o, τ)) : Draws 0 σ τ := by
  unfold Kernel.sysCustom1 at hs
  obtain ⟨a, hfind, hs⟩ := Option.map_eq_some_iff.1 hs
  have ha := Table.mem_of_find? hfind
  dsimp only at hs
  split at hs
  · obtain ⟨-, rfl⟩ := Prod.mk.inj hs
    refine ⟨rfl, fun q => ?_⟩
    have hsum := Table.sum_write ha { σ.sems.cell a with
      count := (σ.sems.cell a).count + 1 } fun x => x.waiting.count q
    dsimp only at hsum
    simp only [Kernel.queued, Kernel.blocked, Pi.zero_apply]
    omega
  · rename_i q l hremove
    obtain ⟨-, rfl⟩ := Prod.mk.inj hs
    split at hremove
    · cases hl : (σ.sems.cell a).waiting with
      | nil => simp [hl] at hremove
      | cons q' l' =>
          rw [hl, listRemove_cons_one] at hremove
          obtain ⟨rfl, rfl⟩ := Prod.mk.inj (Option.some.inj hremove)
          refine wake rfl rfl fun r => ?_
          have hsum := Table.sum_write ha { σ.sems.cell a with
            count := (σ.sems.cell a).count + 1, waiting := l' } fun x => x.waiting.count r
          simp only [hl, count_cons_one] at hsum
          simp only [Kernel.blocked]
          omega
    · exact absurd hremove (by simp)

/-- The sleepers whose time is up leave the list. -/
theorem tickSleepers (l : List SleepInfo) (σ : Kernel) :
    ∃ d, Draws d σ (Kernel.tickSleepers l σ).2 ∧ ∀ q,
      d q + ((Kernel.tickSleepers l σ).1.map SleepInfo.pcb).count q ≤
        (l.map SleepInfo.pcb).count q := by
  induction l generalizing σ with
  | nil => exact ⟨0, refl σ, fun q => by simp [Kernel.tickSleepers]⟩
  | cons s l ih =>
      unfold Kernel.tickSleepers
      dsimp only
      split
      · have hset : Touches [.states] σ (σ.setPcb s.pcb { σ.pcb s.pcb with state := .ready }) :=
          Kernel.setPcb_touches rfl rfl rfl rfl
        have hp := ((of_touches hset (by simp)).trans (readyInsert _ s.pcb)).congr (zero_add _)
        obtain ⟨d, hd, hcount⟩ := ih _
        refine ⟨_, hp.trans hd, fun q => ?_⟩
        have hq := hcount q
        dsimp only at hq
        rw [List.map_cons, count_cons_one, Pi.add_apply]
        omega
      · obtain ⟨d, hd, hcount⟩ := ih σ
        refine ⟨d, hd, fun q => ?_⟩
        have hq := hcount q
        simp only [List.map_cons, count_cons_one]
        omega

theorem updateSleepList (σ : Kernel) : Draws 0 σ σ.updateSleepList := by
  rw [Kernel.updateSleepList_eq]
  obtain ⟨d, hd, hcount⟩ := tickSleepers σ.sleepList σ
  refine ⟨hd.active, fun q => ?_⟩
  have hq := hd.queued q
  have hc := hcount q
  have hsleep := Kernel.tickSleepers_sleepList σ.sleepList σ
  simp only [Kernel.queued, Kernel.blocked, Pi.zero_apply] at hq ⊢
  rw [hsleep] at hq
  omega

theorem trapTtyReceiveHdl (hs : σ.trapTtyReceiveHdl = some τ) : Draws 0 σ τ := by
  unfold Kernel.trapTtyReceiveHdl at hs
  dsimp only at hs
  split at hs
  swap
  · exact absurd hs (by simp)
  have hline := of_touches (Kernel.receiveLine_touches σ σ.uContext.code.toInt) (by simp)
  refine (hline.trans ?_).congr (zero_add 0)
  generalize σ.receiveLine σ.uContext.code.toInt = σ₁ at hs
  cases hl : σ₁.ioList with
  | nil =>
      rw [hl, listRemove_nil] at hs
      exact Option.some.inj hs ▸ refl σ₁
  | cons q l =>
      rw [hl, listRemove_cons_one] at hs
      dsimp only at hs
      split at hs
      · obtain rfl := Option.some.inj hs
        refine wake rfl rfl fun r => ?_
        simp only [Kernel.blocked, hl, count_cons_one]
        omega
      · exact absurd hs (by simp)

theorem trapTtyTransmitHdl (hs : σ.trapTtyTransmitHdl = some τ) : Draws 0 σ τ := by
  unfold Kernel.trapTtyTransmitHdl at hs
  dsimp only at hs
  split at hs
  swap
  · exact absurd hs (by simp)
  split at hs
  · obtain rfl := Option.some.inj hs
    exact ⟨rfl, fun _ => le_rfl⟩
  · rename_i q hfind
    obtain rfl := Option.some.inj hs
    refine wake rfl rfl fun r => ?_
    have hcount := count_eraseP_one hfind r
    simp only [Kernel.blocked]
    omega

theorem wakeParent (σ : Kernel) (ppid : Pid) : Draws 0 σ (σ.wakeParent ppid) := by
  unfold Kernel.wakeParent
  split
  · rename_i hmem
    refine wake rfl rfl fun r => ?_
    have hcount := count_erase_one hmem r
    simp only [Kernel.blocked]
    omega
  · exact refl σ

/-! ### Destroying objects -/

theorem wakeWaiting (j : ℕ) (l : List Pid) (σ : Kernel) :
    ∃ d, Draws d σ (Kernel.wakeWaiting j l σ).2 ∧ ∀ q, d q ≤ l.count q := by
  induction l generalizing j σ with
  | nil => exact ⟨0, refl σ, fun q => Nat.zero_le _⟩
  | cons p l ih =>
      unfold Kernel.wakeWaiting
      split
      · obtain ⟨d, hd, hcount⟩ := ih (j + 1) (σ.readyInsert p).2
        refine ⟨_, (readyInsert σ p).trans hd, fun q => ?_⟩
        have hq := hcount q
        rw [count_cons_one, Pi.add_apply]
        omega
      · exact ⟨0, refl σ, fun q => Nat.zero_le _⟩

theorem destroy (σ : Kernel) (p : Pid) (id : Int) (type : Kind) :
    Draws 0 σ (σ.destroy p id type).2 := by
  cases type with
  | pipe =>
      change Draws 0 σ (σ.destroyPipeInfo id).2
      unfold Kernel.destroyPipeInfo
      split
      · exact refl σ
      split
      · exact refl σ
      rename_i a hfind
      obtain ⟨d, hd, hle⟩ := wakeWaiting 1 (σ.pipes.cell a).pipeWaitList σ
      obtain ⟨hpipes, -, -, -⟩ :=
        Kernel.wakeWaiting_objects 1 (σ.pipes.cell a).pipeWaitList σ
      refine ⟨hd.active, fun q => ?_⟩
      have hq := hd.queued q
      have hc := hle q
      have hsum := Table.sum_free (Table.mem_of_find? hfind) fun x => x.pipeWaitList.count q
      simp only [Kernel.queued, Kernel.blocked, hpipes, Pi.zero_apply] at hq ⊢
      omega
  | lock =>
      change Draws 0 σ (σ.destroyLockInfo p id).2
      unfold Kernel.destroyLockInfo
      split
      · exact refl σ
      split
      · exact refl σ
      rename_i a hfind
      obtain ⟨d, hd, hle⟩ := wakeWaiting 1 (σ.locks.cell a).lockWaitList σ
      obtain ⟨-, hlocks, -, -⟩ :=
        Kernel.wakeWaiting_objects 1 (σ.locks.cell a).lockWaitList σ
      refine ⟨hd.active, fun q => ?_⟩
      have hq := hd.queued q
      have hc := hle q
      have hsum := Table.sum_free (Table.mem_of_find? hfind) fun x => x.lockWaitList.count q
      simp only [Kernel.queued, Kernel.blocked, hlocks, Pi.zero_apply] at hq ⊢
      omega
  | cvar =>
      change Draws 0 σ (σ.destroyCvarInfo id).2
      unfold Kernel.destroyCvarInfo
      split
      · exact refl σ
      split
      · exact refl σ
      rename_i a hfind
      obtain ⟨d, hd, hle⟩ := wakeWaiting 1 (σ.cvars.cell a).cvarWaitList σ
      obtain ⟨-, -, hcvars, -⟩ :=
        Kernel.wakeWaiting_objects 1 (σ.cvars.cell a).cvarWaitList σ
      refine ⟨hd.active, fun q => ?_⟩
      have hq := hd.queued q
      have hc := hle q
      have hsum := Table.sum_free (Table.mem_of_find? hfind) fun x => x.cvarWaitList.count q
      simp only [Kernel.queued, Kernel.blocked, hcvars, Pi.zero_apply] at hq ⊢
      omega

theorem sysReclaim (hs : σ.sysReclaim p = some (o, τ)) : Draws 0 σ τ := by
  unfold Kernel.sysReclaim at hs
  dsimp only at hs
  split at hs
  · exact (Prod.mk.inj (Option.some.inj hs)).2 ▸ refl σ
  split at hs
  · exact (Prod.mk.inj (Option.some.inj hs)).2 ▸ refl σ
  rename_i r _
  have hd := destroy σ p (σ.reg 0).toInt r.type
  split at hs
  · exact (Prod.mk.inj (Option.some.inj hs)).2 ▸ hd
  · obtain ⟨-, rfl⟩ := Prod.mk.inj (Option.some.inj hs)
    exact ⟨hd.active, hd.queued⟩

end Draws

/-! ## Whole calls -/

/-- The process that runs meets `P`, and so does every process in a queue or in the waiting
list of an object. -/
structure Known (P : Pid → Prop) (σ : Kernel) : Prop where
  active : ∀ p, σ.activeProc = some p → P p
  queued : ∀ q, 0 < σ.queued q → q = nullProc ∨ P q

namespace Known

variable {P Q : Pid → Prop} {σ σ' τ : Kernel} {p : Pid} {o : Outcome}

theorem mono (h : Known P σ) (hPQ : ∀ q, P q → Q q) : Known Q σ :=
  ⟨fun p hp => hPQ p (h.active p hp), fun q hq => (h.queued q hq).imp_right (hPQ q)⟩

theorem draws {d : Pid → ℕ} (h : Known P σ) (hd : Draws d σ τ)
    (hnew : ∀ q, 0 < d q → q = nullProc ∨ P q) : Known P τ := by
  constructor
  · intro p hp
    exact h.active p (hd.active ▸ hp)
  · intro q hq
    have hle := hd.queued q
    by_cases hold : 0 < σ.queued q
    · exact h.queued q hold
    · exact hnew q (by omega)

theorem of_draws (h : Known P σ) (hd : Draws 0 σ τ) : Known P τ :=
  h.draws hd fun _ hq => absurd hq (lt_irrefl 0)

theorem of_touches {vs : List View} (h : Known P σ) (ht : Touches vs σ τ)
    (hvs : View.queues ∉ vs) : Known P τ := h.of_draws (.of_touches ht hvs)

/-- A process is put into a queue. -/
theorem insert (h : Known P σ) (hp : p = nullProc ∨ P p) (hd : Draws (one p) σ τ) :
    Known P τ := by
  refine h.draws hd fun q hq => ?_
  by_cases hqp : q = p
  · exact hqp ▸ hp
  · rw [one_of_ne hqp] at hq
    exact absurd hq (lt_irrefl 0)

theorem ret (h : Known P σ) {v : Outcome} (hs : some (v, σ) = some (o, σ')) : Known P σ' :=
  (Prod.mk.inj (Option.some.inj hs)).2 ▸ h

/-! ### Switching -/

theorem contextSwitch (h : Known P σ) {old : Option Pid} {new : Pid} {k : KernelContext}
    (hnew : new = nullProc ∨ P new) (hs : σ.contextSwitch old new k = some σ') :
    Known P σ' := by
  have hne : new ≠ nullProc := by
    rintro rfl
    simp [Kernel.contextSwitch] at hs
  obtain ⟨hactive, -, -, -, -, hqueued⟩ := Kernel.contextSwitch_queues hs
  constructor
  · intro p hp
    obtain rfl := Option.some.inj (hactive.symm.trans hp)
    exact hnew.resolve_left hne
  · intro q hq
    exact h.queued q (hqueued q ▸ hq)

/-- The head of `ready_queue` is taken out. -/
theorem pop {l : List Pid} (h : Known P σ) (hr : σ.readyQueue = p :: l) :
    (p = nullProc ∨ P p) ∧ Known P { σ with readyQueue := l } := by
  have hcount : ∀ q, σ.queued q = (l.count q + one p q) + σ.blocked q := by
    intro q
    rw [Kernel.queued, hr, count_cons_one]
  constructor
  · refine h.queued p ?_
    rw [hcount, one_self]
    omega
  · refine ⟨h.active, fun q hq => h.queued q ?_⟩
    change 0 < l.count q + σ.blocked q at hq
    rw [hcount]
    omega

theorem nextReady (h : Known P σ) : Known P σ.nextReady.2 ∧
    ∀ next, σ.nextReady.1 = some next → next = nullProc ∨ P next := by
  unfold Kernel.nextReady
  cases hr : σ.readyQueue with
  | nil =>
      rw [listRemove_nil]
      exact ⟨h, fun _ hn => absurd hn (by simp)⟩
  | cons p l =>
      rw [listRemove_cons_one]
      dsimp only
      obtain ⟨hp, hrest⟩ := h.pop hr
      split
      · have hput := hrest.insert hp (.readyInsert _ p)
        generalize (Kernel.readyInsert { σ with readyQueue := l } p).2 = τ at hput ⊢
        cases hr' : τ.readyQueue with
        | nil =>
            rw [listRemove_nil]
            exact ⟨hput, fun _ hn => absurd hn (by simp)⟩
        | cons p' l' =>
            rw [listRemove_cons_one]
            obtain ⟨hp', hrest'⟩ := hput.pop hr'
            exact ⟨hrest', fun _ hn => Option.some.inj hn ▸ hp'⟩
      · exact ⟨hrest, fun _ hn => Option.some.inj hn ▸ hp⟩

theorem normalSchedule (h : Known P σ) {k : KernelContext} {r : Sched × Kernel}
    (hs : σ.normalSchedule k = some r) : Known P r.2 := by
  unfold Kernel.normalSchedule at hs
  split at hs
  swap
  · obtain rfl := Option.some.inj hs
    exact ⟨h.active, h.queued⟩
  obtain ⟨hready, hnext⟩ := h.nextReady
  generalize σ.nextReady = n at hs hready hnext
  obtain ⟨n₁, τ⟩ := n
  cases n₁ with
  | none =>
      obtain rfl := Option.some.inj hs
      exact hready
  | some next =>
      obtain ⟨τ', hτ, rfl⟩ := Option.map_eq_some_iff.1 hs
      exact hready.contextSwitch (hnext next rfl) hτ

theorem doScheduler (h : Known P σ) {r : Sched × Kernel} (hs : σ.doScheduler = some r) :
    Known P r.2 := by
  unfold Kernel.doScheduler at hs
  split at hs
  swap
  · obtain rfl := Option.some.inj hs
    exact h
  have hold : σ.activeProc.getD nullProc = nullProc ∨ P (σ.activeProc.getD nullProc) := by
    cases ha : σ.activeProc with
    | none => exact .inl rfl
    | some p => exact .inr (h.active p ha)
  obtain ⟨hready, hnext⟩ := (h.insert hold (.readyInsert σ _)).nextReady
  dsimp only at hs
  generalize ((σ.readyInsert (σ.activeProc.getD nullProc)).2).nextReady = n at hs hready hnext
  obtain ⟨n₁, τ⟩ := n
  cases n₁ with
  | none =>
      obtain rfl := Option.some.inj hs
      exact hready
  | some next =>
      obtain ⟨τ', hτ, rfl⟩ := Option.map_eq_some_iff.1 hs
      exact hready.contextSwitch (hnext next rfl) hτ

/-- A process blocks, and what it does if nobody else can run keeps to `P`. -/
theorem block (h : Known P σ) {k : KernelContext} {after : Kernel → Option (Outcome × Kernel)}
    (hafter : ∀ τ, Known P τ → after τ = some (o, σ') → Known P σ')
    (hs : σ.block k after = some (o, σ')) : Known P σ' := by
  obtain ⟨r, hr, hs⟩ := Option.bind_eq_some_iff.1 hs
  have hknown := h.normalSchedule hr
  split at hs
  · exact hknown.ret hs
  · split at hs
    · exact hknown.ret hs
    · exact hafter _ hknown hs

/-! ### Calls -/

theorem sysFork (h : Known P σ) (hchild : σ.malloc.1.ok = true → P σ.nextPid)
    (hs : σ.sysFork p = some (o, σ')) : Known P σ' := by
  have hblock := h.of_touches (Kernel.malloc_touches σ) (by simp)
  unfold Kernel.sysFork at hs
  dsimp only at hs
  split at hs
  swap
  · exact hblock.ret hs
  rename_i hok
  split at hs
  · exact absurd hs (by simp)
  have hhead := (hblock.of_touches (Kernel.createChild_touches σ.malloc.2 p σ.malloc.1)
    (by simp)).of_touches (Kernel.malloc_touches _) (by simp)
  split at hs
  swap
  · exact hhead.ret hs
  obtain ⟨τ, hτ, hs⟩ := Option.map_eq_some_iff.1 hs
  have hcontext := (hhead.of_touches (Kernel.setPcb_touches_users (by rfl) (by rfl) (by rfl)
    (by rfl) (by rfl)) (by simp)).of_touches (Kernel.initProcKernel_touches_frames hτ) (by simp)
  have hcopy := hcontext.of_touches (Kernel.copySpace_touches τ p σ.nextPid) (by simp)
  split at hs
  · obtain ⟨-, rfl⟩ := Prod.mk.inj hs
    exact hcopy.insert (.inr (hchild hok)) (.readyInsert _ _)
  · obtain ⟨-, rfl⟩ := Prod.mk.inj hs
    exact hcopy

theorem sysExit (h : Known P σ) {status : Word} (hs : σ.sysExit p status = some (o, σ')) :
    Known P σ' := by
  unfold Kernel.sysExit at hs
  obtain ⟨family, -, hs⟩ := Option.bind_eq_some_iff.1 hs
  obtain ⟨⟨rc, τ⟩, hτ, hs⟩ := Option.bind_eq_some_iff.1 hs
  have htell := h.of_touches ((Kernel.setFamily_touches σ family).trans
    (Kernel.tellParent_touches hτ)) (by simp)
  dsimp only at hs
  split at hs
  · exact htell.ret hs
  have hwake := (htell.of_touches (Kernel.freeSpace_touches τ p) (by simp)).of_draws
    (.wakeParent _ (τ.family p).ppid)
  have hleft : Known P { (τ.freeSpace p).wakeParent (τ.family p).ppid with
      activeProc := none, live := ((τ.freeSpace p).wakeParent (τ.family p).ppid).live.erase p } :=
    ⟨fun _ hn => absurd hn.symm (Option.some_ne_none _), hwake.queued⟩
  exact hleft.block (fun _ hτ hs => hτ.ret hs) hs

theorem sysWait (h : Known P σ) (hp : P p) (hs : σ.sysWait p = some (o, σ')) :
    Known P σ' := by
  unfold Kernel.sysWait at hs
  dsimp only at hs
  split at hs
  · exact h.ret hs
  obtain ⟨_, -, hs⟩ := Option.bind_eq_some_iff.1 hs
  split at hs
  · exact h.ret hs
  unfold Kernel.scanDead at hs
  split at hs
  · refine (h.insert (.inr hp) (.waitInsert σ p)).block ?_ hs
    intro τ hτ hs
    exact hτ.of_touches (Kernel.sysWaitResume_touches hs) (by simp)
  split at hs
  · obtain ⟨τ, hτ, hs⟩ := Option.map_eq_some_iff.1 hs
    obtain ⟨-, rfl⟩ := Prod.mk.inj hs
    have hstore := h.of_touches (Kernel.storeInt_touches hτ) (by simp)
    exact ⟨hstore.active, hstore.queued⟩
  · exact absurd hs (by simp)

theorem sysDelay (h : Known P σ) (hp : P p) (hs : σ.sysDelay p = some (o, σ')) :
    Known P σ' := by
  unfold Kernel.sysDelay at hs
  dsimp only at hs
  split at hs
  · exact h.ret hs
  split at hs
  · exact h.ret hs
  have hsleep := h.insert (.inr hp) (.insertSleepList σ p (σ.reg 0).toInt)
  split at hs
  · exact hsleep.ret hs
  · exact hsleep.block (fun _ hτ hs => hτ.ret hs) hs

theorem sysTtyRead (h : Known P σ) (hp : P p) (hs : σ.sysTtyRead p = some (o, σ')) :
    Known P σ' := by
  unfold Kernel.sysTtyRead at hs
  dsimp only at hs
  split at hs
  · exact h.ret hs
  split at hs
  · exact h.ret hs
  split at hs
  · exact h.ret hs
  split at hs
  · exact h.ret hs
  have hset := h.of_touches (Kernel.setPcb_touches_buffers (σ := σ) (p := p) (x := { σ.pcb p with
    ttyId := (σ.reg 0).toInt, buf := σ.reg 1, len := (σ.reg 2).toInt, state := .blockedR })
      (by rfl) (by rfl)) (by simp)
  have hio := hset.insert (.inr hp) (.ioInsert _ p)
  split at hs
  · exact hio.ret hs
  · refine hio.block ?_ hs
    intro τ hτ hs
    exact hτ.of_touches (Kernel.sysTtyReadResume_touches hs) (by simp)

theorem blockWriter (h : Known P σ) (hp : P p) : Known P (σ.blockWriter p).2 := by
  have hset := h.of_touches (Kernel.setPcb_touches (σ := σ) (p := p) (x := { σ.pcb p with
    ttyId := (σ.reg 0).toInt, state := .blockedW }) (by rfl) (by rfl) (by rfl) (by rfl)) (by simp)
  exact hset.insert (.inr hp) (.ioInsert _ p)

theorem ttyWriteLoop (h : Known P σ) (hp : P p) {n : ℕ} {ttyId remainBytes : Int}
    (hs : Kernel.ttyWriteLoop n σ p ttyId remainBytes = some (o, σ')) : Known P σ' := by
  induction n generalizing σ remainBytes with
  | zero => exact absurd hs (by simp [Kernel.ttyWriteLoop])
  | succ n ih =>
      unfold Kernel.ttyWriteLoop at hs
      dsimp only at hs
      split at hs
      · exact h.ret hs
      split at hs
      swap
      · exact absurd hs (by simp)
      split at hs
      · have hblock := h.blockWriter hp
        split at hs
        · exact hblock.ret hs
        · exact hblock.block (fun _ hτ hs => ih hτ hs) hs
      · obtain ⟨bytes, -, hs⟩ := Option.bind_eq_some_iff.1 hs
        have hsend := h.of_touches (Kernel.ttyTransmit_touches σ ttyId bytes) (by simp)
        have hblock := hsend.blockWriter hp
        split at hs
        · exact hblock.ret hs
        · exact hblock.block (fun _ hτ hs => ih hτ hs) hs

theorem sysTtyWrite (h : Known P σ) (hp : P p) (hs : σ.sysTtyWrite p = some (o, σ')) :
    Known P σ' := by
  unfold Kernel.sysTtyWrite at hs
  dsimp only at hs
  split at hs
  · exact h.ret hs
  split at hs
  · exact h.ret hs
  split at hs
  · exact h.ret hs
  split at hs
  · exact h.ret hs
  · exact h.ttyWriteLoop hp hs

/-- The contents of a pipe change, and then its first waiting process becomes ready. -/
theorem writePipe_wake (h : Known P σ) {a : ℕ} (ha : a ∈ σ.pipes.list) {x : PipeInfo}
    (hx : x.pipeWaitList = (σ.pipes.cell a).pipeWaitList) :
    Known P (Kernel.wakePipe { σ with pipes := σ.pipes.write a x } a) :=
  (h.of_draws (.writePipe hx)).of_draws (.wakePipe (by exact ha))

theorem takeBytes (h : Known P σ) {a : ℕ} (ha : a ∈ σ.pipes.list) {buf : Word} {len : Int}
    (hs : σ.takeBytes a buf len = some (o, σ')) : Known P σ' := by
  unfold Kernel.takeBytes at hs
  obtain ⟨σ₁, hσ₁, hs⟩ := Option.bind_eq_some_iff.1 hs
  have hout := h.of_touches ((Kernel.copyOut_touches hσ₁).seq (Kernel.malloc_touches σ₁)) (by simp)
  obtain ⟨phys, -, rfl⟩ := Option.map_eq_some_iff.1 hσ₁
  dsimp only at hs
  split at hs
  · obtain ⟨-, rfl⟩ := Prod.mk.inj (Option.some.inj hs)
    exact hout.writePipe_wake (by exact ha) (by rfl)
  · exact absurd hs (by simp)

theorem pipeReadLoop (h : Known P σ) (hp : P p) {a : ℕ} {pipeId : Int} {buf : Word} {len : Int}
    {exist : Bool} (hs : σ.pipeReadLoop p a pipeId buf len exist = some (o, σ')) :
    Known P σ' := by
  unfold Kernel.pipeReadLoop at hs
  split at hs
  · split at hs
    · refine (h.insert (.inr hp) (.pipeWaitInsert ‹_› p)).block ?_ hs
      intro τ _ hs
      exact absurd hs (by simp)
    · exact h.takeBytes ‹_› hs
  · exact absurd hs (by simp)

theorem sysPipeReadResume (h : Known P σ) (hp : P p) {a : ℕ} {pipeId : Int} {buf : Word}
    {len : Int} {exist : Bool}
    (hs : σ.sysPipeReadResume p a pipeId buf len exist = some (o, σ')) : Known P σ' := by
  unfold Kernel.sysPipeReadResume at hs
  dsimp only at hs
  split at hs
  · exact h.pipeReadLoop hp hs
  · exact h.ret hs

theorem sysPipeRead (h : Known P σ) (hp : P p) (hs : σ.sysPipeRead p = some (o, σ')) :
    Known P σ' := by
  unfold Kernel.sysPipeRead at hs
  dsimp only at hs
  split at hs
  · exact h.ret hs
  split at hs
  · exact h.ret hs
  split at hs
  · exact h.ret hs
  split at hs
  · exact h.ret hs
  · exact h.pipeReadLoop hp hs

theorem sysPipeWrite (h : Known P σ) (hs : σ.sysPipeWrite p = some (o, σ')) : Known P σ' := by
  unfold Kernel.sysPipeWrite at hs
  dsimp only at hs
  split at hs
  · exact h.ret hs
  split at hs
  · exact h.ret hs
  split at hs
  · exact h.ret hs
  split at hs
  · exact h.ret hs
  · rename_i a hfind
    obtain ⟨bytes, -, hs⟩ := Option.map_eq_some_iff.1 hs
    obtain ⟨-, rfl⟩ := Prod.mk.inj hs
    exact h.writePipe_wake (Table.mem_of_find? hfind) (by rfl)

theorem acquireLoop (h : Known P σ) (hp : P p) {via : Option Int} {a : ℕ} {lockId : Int}
    {exist : Bool} (hs : σ.acquireLoop p via a lockId exist = some (o, σ')) : Known P σ' := by
  unfold Kernel.acquireLoop at hs
  dsimp only at hs
  split at hs
  · split at hs
    · refine (h.insert (.inr hp) (.lockWaitInsert ‹_› p)).block ?_ hs
      intro τ _ hs
      exact absurd hs (by simp)
    · exact (h.of_draws (.writeLock (by rfl))).ret hs
  · exact absurd hs (by simp)

theorem sysAcquireResume (h : Known P σ) (hp : P p) {via : Option Int} {a : ℕ} {lockId : Int}
    {exist : Bool} (hs : σ.sysAcquireResume p via a lockId exist = some (o, σ')) :
    Known P σ' := by
  unfold Kernel.sysAcquireResume at hs
  dsimp only at hs
  split at hs
  · exact h.acquireLoop hp hs
  · exact h.ret hs

theorem sysAcquire (h : Known P σ) (hp : P p) {via : Option Int} {id : Int}
    (hs : σ.sysAcquire p via id = some (o, σ')) : Known P σ' := by
  unfold Kernel.sysAcquire at hs
  dsimp only at hs
  split at hs
  · exact h.ret hs
  split at hs
  · exact h.ret hs
  · exact h.acquireLoop hp hs

theorem sysCvarWaitResume (h : Known P σ) (hp : P p) {cvarId lockId : Int}
    (hs : σ.sysCvarWaitResume p cvarId lockId = some (o, σ')) : Known P σ' := by
  unfold Kernel.sysCvarWaitResume at hs
  split at hs
  · exact h.sysAcquire hp hs
  · exact h.ret hs

theorem sysCvarWait (h : Known P σ) (hp : P p) (hs : σ.sysCvarWait p = some (o, σ')) :
    Known P σ' := by
  unfold Kernel.sysCvarWait at hs
  dsimp only at hs
  have hrel := h.of_draws (.sysRelease σ p (σ.reg 1).toInt)
  split at hs
  · exact hrel.ret hs
  split at hs
  · exact hrel.ret hs
  · rename_i a hfind
    refine (hrel.insert (.inr hp) (.cvarWaitInsert (Table.mem_of_find? hfind) p)).block ?_ hs
    intro τ hτ hs
    exact hτ.sysCvarWaitResume hp hs

theorem sysCustom2 (h : Known P σ) (hp : P p) (hs : σ.sysCustom2 p = some (o, σ')) :
    Known P σ' := by
  unfold Kernel.sysCustom2 at hs
  obtain ⟨a, hfind, hs⟩ := Option.bind_eq_some_iff.1 hs
  have ha := Table.mem_of_find? hfind
  have hknown := h.of_draws (.writeSem (a := a)
    (x := { σ.sems.cell a with count := (σ.sems.cell a).count - 1 }) rfl)
  dsimp only at hs
  split at hs
  · refine (hknown.insert (.inr hp) (.semWaitInsert (by exact ha) p)).block ?_ hs
    intro τ hτ hs
    exact hτ.ret hs
  · exact hknown.ret hs

/-- A call keeps to the processes that are known and the one that it creates. -/
theorem sysCall {c : Call} (h : Known P σ) (hp : P p)
    (hchild : c = .fork → σ.malloc.1.ok = true → P σ.nextPid)
    (hs : σ.sysCall p c = some (o, σ')) : Known P σ' := by
  cases c with
  | fork => exact h.sysFork (hchild rfl) hs
  | exit => exact h.sysExit hs
  | wait => exact h.sysWait hp hs
  | delay => exact h.sysDelay hp hs
  | ttyRead => exact h.sysTtyRead hp hs
  | ttyWrite => exact h.sysTtyWrite hp hs
  | pipeRead => exact h.sysPipeRead hp hs
  | pipeWrite => exact h.sysPipeWrite hs
  | lockAcquire => exact h.sysAcquire hp (show σ.sysAcquire p none 0 = _ from hs)
  | lockRelease => exact (h.of_draws (.sysRelease σ p _)).ret hs
  | cvarSignal => exact h.of_draws (.sysCvarSignal (p := p) hs)
  | cvarBroadcast => exact h.of_draws (.sysCvarBroadcast (p := p) hs)
  | cvarWait => exact h.sysCvarWait hp hs
  | reclaim => exact h.of_draws (.sysReclaim hs)
  | custom0 => exact h.of_draws (.sysCustom0 (p := p) hs)
  | custom1 => exact h.of_draws (.sysCustom1 (p := p) hs)
  | custom2 => exact h.sysCustom2 hp hs
  | _ => exact h.of_touches (Kernel.sysCall_touches hs) (by simp [Kernel.callViews])

theorem resumeCall {k : KernelContext} (h : Known P σ) (hp : P p)
    (hs : σ.resumeCall p k = some (o, σ')) : Known P σ' := by
  cases k with
  | ttyBusy t r => exact h.ttyWriteLoop hp hs
  | ttySent t r => exact h.ttyWriteLoop hp hs
  | pipeRead a i b n e => exact h.sysPipeReadResume hp hs
  | acquire v a x e => exact h.sysAcquireResume hp hs
  | cvarWait a c x => exact h.sysCvarWaitResume hp hs
  | _ => exact h.of_touches (Kernel.resumeCall_touches hs) (by simp [Kernel.resumeViews])

end Known

/-- A step keeps to the processes that are known and the one that a Fork creates. -/
theorem Kernel.Steps.known {P : Pid → Prop} {σ σ' : Kernel} {l : Label} (hs : Kernel.Steps σ l σ')
    (h : Known P σ)
    (hchild : l.call = some .fork → (σ.begin l).malloc.1.ok = true → P σ.nextPid) :
    Known P σ' := by
  have henter : ∀ u, Known P ((σ.begin l).enter u) := fun u =>
    h.of_touches (Kernel.enter_touches σ l u) (by simp)
  have hend : ∀ {o : Outcome} {τ : Kernel}, Known P τ → Known P (Kernel.finish (o, τ)) :=
    fun hτ => hτ.of_touches (Kernel.finish_touches _ _) (by simp)
  cases hs with
  | store hl hu hs =>
      exact h.of_touches ((Kernel.begin_touches σ l).seq (Kernel.copyOut_touches hs)) (by simp)
  | @call u p c o τ hl hu hv hp hc hs =>
      refine hend ((henter u).sysCall (h.active p hp) (fun hfork hok => hchild ?_ hok) hs)
      simp [Label.call, hl, hv, hc, hfork]
  | @clock u τ hl hu hv hs =>
      obtain ⟨r, hr, hret⟩ := Option.map_eq_some_iff.1 hs
      have hknown := ((henter u).of_draws (.updateSleepList _)).doScheduler hr
      split at hret
      · exact hret ▸ hknown
      · exact hret ▸ hknown.of_touches (Kernel.returnUser_touches _) (by simp)
  | abort hl hu hv hp hs => exact hend ((henter _).sysExit hs)
  | grow hl hu hv hp hfit hs =>
      exact (henter _).of_touches ((Kernel.growUserStack_touches hs).seq
        (Kernel.returnUser_touches _)) (by simp)
  | receive hl hu hv hs =>
      exact ((henter _).of_draws (.trapTtyReceiveHdl hs)).of_touches
        (Kernel.returnUser_touches _) (by simp)
  | transmit hl hu hv hs =>
      exact ((henter _).of_draws (.trapTtyTransmitHdl hs)).of_touches
        (Kernel.returnUser_touches _) (by simp)
  | disk hl hu hv => exact (henter _).of_touches (Kernel.returnUser_touches _) (by simp)
  | @resume p o τ hl hu hp hs =>
      exact hend ((h.of_touches (Kernel.restore_touches σ l p) (by simp)).resumeCall
        (h.active p hp) hs)

end Yalnix
