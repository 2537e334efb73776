import Yalnix.Sync.Lock

/-!
# A CvarWait that fails

CvarWait gives up the lock before it looks for the condition variable, and does not take the
lock back when there is none. The other ways to fail after the release are rare: idle alone is
ready and cannot be put back into `ready_queue`, or nobody is ready and the lock has the id 0,
which Acquire takes for the id of the condition variable.
-/

namespace Yalnix

open Transition

namespace Kernel

/-- The locks, the queues and the processes that are ready are the same. -/
structure Unaffected (σ σ' : Kernel) : Prop where
  locks : σ'.locks = σ.locks
  ready : σ'.readyQueue = σ.readyQueue
  sleep : σ'.sleepList = σ.sleepList
  wait : σ'.waitList = σ.waitList
  io : σ'.ioList = σ.ioList
  pipes : σ'.pipes = σ.pipes
  cvars : σ'.cvars = σ.cvars
  sems : σ'.sems = σ.sems
  state : ∀ q, (σ'.pcb q).state = (σ.pcb q).state

/-- The lock with id `x` that process `p` holds. -/
def lockHeld (σ : Kernel) (p : Pid) (x : Int) : Option ℕ :=
  σ.locks.find? fun l => l.lockid = x ∧ l.pid = p ∧ l.locked = true

/-- The processes that are ready when the lock at `a` has been released. -/
def readyAfter (σ : Kernel) (a : ℕ) : List Pid :=
  σ.readyQueue ++ if σ.mem.mallocOk 0 then (σ.locks.cell a).lockWaitList.take 1 else []

/-- A CvarWait that gives up the lock at `a`, and finds its cvar, fails all the same. -/
def EndsEarly (σ : Kernel) (a : ℕ) : Prop :=
  σ.readyAfter a = [idle] ∧
      σ.mem.mallocOk (((σ.locks.cell a).lockWaitList.take 1).length + 1) = false ∨
    σ.readyAfter a = [] ∧ (σ.reg 1).toInt = 0 ∧
      σ.locks.find? (fun l => l.lockid = (σ.reg 0).toInt) = none

variable {σ τ : Kernel} {p : Pid} {a c : ℕ} {x y : Int}

/-! ## The release -/

theorem lockHeld_some (h : σ.lockHeld p x = some a) : a ∈ σ.locks.list ∧
    (σ.locks.cell a).lockid = x ∧ (σ.locks.cell a).pid = p ∧ (σ.locks.cell a).locked = true := by
  unfold lockHeld at h
  have hprop := Table.prop_of_find? h
  exact ⟨Table.mem_of_find? h, of_decide_eq_true hprop⟩

theorem sysRelease_none (h : σ.lockHeld p x = none) : σ.sysRelease p x = (error, σ) := by
  unfold lockHeld at h
  unfold sysRelease
  rw [h]

/-- A Release frees the lock, makes the first waiting process ready and leaves the cvars. -/
theorem sysRelease_some (h : σ.lockHeld p x = some a) : ∃ q ws,
    (σ.sysRelease p x).1 = 0 ∧
    (σ.sysRelease p x).2.locks = σ.locks.write a ⟨(σ.locks.cell a).lockid, false, q, ws⟩ ∧
    (σ.sysRelease p x).2.readyQueue = σ.readyAfter a ∧
    (σ.sysRelease p x).2.mem =
      σ.mem.afterMallocs ((σ.locks.cell a).lockWaitList.take 1).length := by
  unfold lockHeld at h
  unfold sysRelease readyAfter
  rw [h]
  dsimp only
  cases hws : (σ.locks.cell a).lockWaitList with
  | nil =>
      rw [listRemove_nil]
      exact ⟨0, [], rfl, rfl, by simp, rfl⟩
  | cons q ws =>
      rw [listRemove_cons_one]
      refine ⟨q, ws, rfl, rfl, ?_, ?_⟩
      · unfold readyInsert Mem.mallocOk
        dsimp only
        rw [listInsert_last]
        split <;> rename_i hok
        · simp [Mem.afterMallocs, hok]
        · simp [Mem.afterMallocs, hok]
      · unfold readyInsert
        dsimp only
        rw [listInsert_last]
        split <;> rfl

/-! ## The switch -/

/-- There is no process to switch to when idle is alone and cannot be put back. -/
theorem nextReady_none (h : σ.readyQueue ≠ []) : σ.nextReady.1 = none ↔
    σ.readyQueue = [idle] ∧ σ.mem.malloc.1.ok = false := by
  unfold nextReady
  cases hq : σ.readyQueue with
  | nil => exact absurd hq h
  | cons q rest =>
      rw [listRemove_cons_one]
      dsimp only
      by_cases hidle : q = idle
      swap
      · rw [if_neg hidle]
        simp [hidle]
      rw [if_pos hidle]
      unfold readyInsert
      dsimp only
      rw [listInsert_last]
      cases rest with
      | nil => cases hok : σ.mem.malloc.1.ok <;> simp [hidle]
      | cons r rest => cases hok : σ.mem.malloc.1.ok <;> simp

/-- When `normal_schedule` returns an error, the rest is as before but for `ready_queue`. -/
theorem normalSchedule_error {k : KernelContext} {rc : Int}
    (h : σ.normalSchedule k = some (.returned rc, τ)) (hrc : rc ≠ 0) :
    τ.locks = σ.locks ∧ σ.readyQueue = [idle] ∧ σ.mem.malloc.1.ok = false := by
  unfold normalSchedule at h
  split at h
  swap
  · obtain ⟨hr, -⟩ := Prod.mk.inj (Option.some.inj h)
    exact absurd (Sched.returned.inj hr).symm hrc
  rename_i hlen
  cases hn : σ.nextReady with
  | mk next τ' =>
      rw [hn] at h
      cases next with
      | some q => simp at h
      | none =>
          obtain ⟨-, rfl⟩ := Prod.mk.inj (Option.some.inj h)
          have hlocks : σ.nextReady.2.locks = σ.locks :=
            (nextReady_touches σ).same .lockTable (by simp)
          rw [hn] at hlocks
          refine ⟨hlocks, (nextReady_none (List.ne_nil_of_length_pos hlen)).1 ?_⟩
          rw [hn]

theorem error_ne_zero : Outcome.ret 0 ≠ .ret error := by decide

/-- `normal_schedule` returns 0 only when nobody is ready. -/
theorem normalSchedule_fell {k : KernelContext} {rc : Int}
    (h : σ.normalSchedule k = some (.returned rc, τ)) (hrc : rc = 0) :
    σ.readyQueue = [] ∧ τ = { σ with fellThrough := σ.fellThrough + 1 } := by
  unfold normalSchedule at h
  split at h
  · cases hn : σ.nextReady with
    | mk next τ' =>
        rw [hn] at h
        cases next with
        | some q => simp at h
        | none =>
            obtain ⟨hr, -⟩ := Prod.mk.inj (Option.some.inj h)
            rw [hrc] at hr
            exact absurd hr (by decide)
  · rename_i hlen
    obtain ⟨-, rfl⟩ := Prod.mk.inj (Option.some.inj h)
    exact ⟨List.length_eq_zero_iff.1 (Nat.eq_zero_of_not_pos hlen), rfl⟩

/-- When nobody is ready, an Acquire fails only for want of a lock with the id. -/
theorem sysAcquire_alone (hready : σ.readyQueue = []) :
    σ.sysAcquire p (some x) y = some (.ret error, τ) ↔ τ = σ ∧ 0 ≤ y ∧
      σ.locks.find? (fun l => l.lockid = if y = 0 then (σ.reg 0).toInt else y) = none := by
  unfold sysAcquire
  dsimp only
  by_cases hy : y < 0
  · rw [if_pos hy]
    constructor
    · intro h
      exact absurd (Prod.mk.inj (Option.some.inj h)).1 error_ne_zero
    · rintro ⟨-, hpos, -⟩
      omega
  rw [if_neg hy]
  cases hfind : σ.locks.find? fun l => l.lockid = if y = 0 then (σ.reg 0).toInt else y with
  | none => simp [not_lt.1 hy, eq_comm]
  | some b =>
      have hb := Table.mem_of_find? hfind
      dsimp only
      unfold acquireLoop
      dsimp only
      rw [if_pos hb]
      -- a lock that is held is waited for without end
      have hwait : ∀ k, (σ.lockWaitInsert b p).block k (fun _ => none) = none := by
        intro k
        have hq : (σ.lockWaitInsert b p).readyQueue = [] := hready
        unfold block normalSchedule
        rw [hq]
        rfl
      cases hlocked : (σ.locks.cell b).locked with
      | true => simp [hwait]
      | false => simp [error]

/-! ## The call -/

theorem cvarWaitInsert_cvars (σ : Kernel) (c : ℕ) (p : Pid) (x : Int) :
    (σ.cvarWaitInsert c p).cvars.any (fun c1 => c1.cvarid = x) =
      σ.cvars.any fun c1 => c1.cvarid = x := by
  apply Table.any_congr
  · rfl
  · intro b
    have hid : ((σ.cvarWaitInsert c p).cvars.cell b).cvarid = (σ.cvars.cell b).cvarid := by
      unfold cvarWaitInsert
      refine Table.cell_write_congr CvarInfo.cvarid ?_ b
      rfl
    rw [hid]

theorem afterMallocs_malloc (m : Mem) (n : ℕ) :
    (m.afterMallocs n).malloc.2 = m.afterMallocs (n + 1) := by
  induction n generalizing m with
  | zero => rfl
  | succ n ih => exact ih m.malloc.2

theorem cvarWaitInsert_mem (σ : Kernel) (c : ℕ) (p : Pid) :
    (σ.cvarWaitInsert c p).mem = σ.mem.malloc.2 := by
  unfold cvarWaitInsert
  dsimp only
  rw [listInsert_last]
  split <;> rfl

/-- A CvarWait whose lock is not held by the caller changes nothing. -/
theorem sysCvarWait_notHeld (h : σ.lockHeld p (σ.reg 1).toInt = none) :
    σ.sysCvarWait p = some (.ret error, σ) := by
  unfold sysCvarWait
  dsimp only
  rw [sysRelease_none h]
  rfl

/-- A CvarWait on a cvar that does not exist is a Release. -/
theorem sysCvarWait_noCvar (ha : σ.lockHeld p (σ.reg 1).toInt = some a)
    (hc : σ.cvars.find? (fun c => c.cvarid = (σ.reg 0).toInt) = none) :
    σ.sysCvarWait p = some (.ret error, (σ.sysRelease p (σ.reg 1).toInt).2) := by
  obtain ⟨q, ws, hzero, -⟩ := sysRelease_some ha
  have hcvars : (σ.sysRelease p (σ.reg 1).toInt).2.cvars = σ.cvars :=
    (sysRelease_touches σ p _).same .cvars (by simp)
  unfold sysCvarWait
  dsimp only
  rw [hzero, if_neg (by simp), hcvars, hc]

/-- A CvarWait that finds the lock held and the cvar, up to `normal_schedule`. -/
theorem sysCvarWait_found (ha : σ.lockHeld p (σ.reg 1).toInt = some a)
    (hc : σ.cvars.find? (fun c => c.cvarid = (σ.reg 0).toInt) = some c) : ∃ τ : Kernel,
    σ.sysCvarWait p = τ.block (.cvarWait c (σ.reg 0).toInt (σ.reg 1).toInt)
      (fun υ => υ.sysCvarWaitResume p (σ.reg 0).toInt (σ.reg 1).toInt) ∧
    (∃ q ws, τ.locks = σ.locks.write a ⟨(σ.locks.cell a).lockid, false, q, ws⟩) ∧
    τ.readyQueue = σ.readyAfter a ∧ τ.uContext = σ.uContext ∧
    τ.mem = σ.mem.afterMallocs (((σ.locks.cell a).lockWaitList.take 1).length + 1) ∧
    τ.cvars.any (fun c => c.cvarid = (σ.reg 0).toInt) = true := by
  obtain ⟨q, ws, hzero, hlocks, hready, hmem⟩ := sysRelease_some ha
  have hcvars : (σ.sysRelease p (σ.reg 1).toInt).2.cvars = σ.cvars :=
    (sysRelease_touches σ p _).same .cvars (by simp)
  have hctxt : (σ.sysRelease p (σ.reg 1).toInt).2.uContext = σ.uContext :=
    (sysRelease_touches σ p _).same .registers (by simp) |>.1
  refine ⟨(σ.sysRelease p (σ.reg 1).toInt).2.cvarWaitInsert c p, ?_, ⟨q, ws, hlocks⟩, hready,
    hctxt, ?_, ?_⟩
  · unfold sysCvarWait
    dsimp only
    rw [hzero, if_neg (by simp), hcvars, hc]
  · rw [cvarWaitInsert_mem, hmem]
    exact afterMallocs_malloc _ _
  · rw [cvarWaitInsert_cvars, hcvars, Table.any_eq_true]
    exact ⟨c, Table.mem_of_find? hc, Table.prop_of_find? hc⟩

theorem lockid_released {q : Pid} {ws : List Pid}
    (h : τ.locks = σ.locks.write a ⟨(σ.locks.cell a).lockid, false, q, ws⟩) :
    τ.locks.find? (fun l => l.lockid = x) = σ.locks.find? fun l => l.lockid = x := by
  rw [h]
  apply Table.find?_congr
  · rfl
  · intro b
    have hid : ((σ.locks.write a ⟨(σ.locks.cell a).lockid, false, q, ws⟩).cell b).lockid =
        (σ.locks.cell b).lockid := by
      refine Table.cell_write_congr LockInfo.lockid ?_ b
      rfl
    rw [hid]

/-- A CvarWait that fails after the release leaves the lock free. -/
theorem sysCvarWait_error (ha : σ.lockHeld p (σ.reg 1).toInt = some a)
    (h : σ.sysCvarWait p = some (.ret error, τ)) :
    (τ.locks.cell a).locked = false ∧
      (σ.cvars.find? (fun c => c.cvarid = (σ.reg 0).toInt) = none ∨ σ.EndsEarly a) := by
  have hmem := (lockHeld_some ha).1
  cases hc : σ.cvars.find? fun c => c.cvarid = (σ.reg 0).toInt with
  | none =>
      rw [sysCvarWait_noCvar ha hc] at h
      obtain ⟨-, rfl⟩ := Prod.mk.inj (Option.some.inj h)
      obtain ⟨q, ws, -, hlocks, -⟩ := sysRelease_some ha
      rw [hlocks, Table.cell_write_self hmem]
      exact ⟨rfl, .inl rfl⟩
  | some c =>
      obtain ⟨υ, hrun, ⟨q, ws, hlocks⟩, hready, hctxt, hmalloc, hany⟩ := sysCvarWait_found ha hc
      have hfree : (υ.locks.cell a).locked = false := by
        rw [hlocks, Table.cell_write_self hmem]
      rw [hrun] at h
      obtain ⟨⟨s, φ⟩, hφ, h⟩ := Option.bind_eq_some_iff.1 h
      cases s with
      | switched => simp at h
      | returned rc =>
          dsimp only at h
          split at h
          · rename_i hrc
            obtain ⟨-, rfl⟩ := Prod.mk.inj (Option.some.inj h)
            obtain ⟨hsame, hidle, hnode⟩ := normalSchedule_error hφ hrc
            rw [hmalloc] at hnode
            exact ⟨hsame ▸ hfree, .inr (.inl ⟨hready ▸ hidle, hnode⟩)⟩
          · rename_i hrc
            -- nobody was ready, and the call goes on to the Acquire
            obtain ⟨hempty, rfl⟩ := normalSchedule_fell hφ (not_not.1 hrc)
            unfold sysCvarWaitResume at h
            rw [if_pos (by exact hany)] at h
            obtain ⟨rfl, hpos, hfind⟩ := (sysAcquire_alone (by exact hempty)).1 h
            refine ⟨hfree, .inr (.inr ⟨hready ▸ hempty, ?_⟩)⟩
            have hreg : (υ.reg 0).toInt = (σ.reg 0).toInt := by
              unfold reg
              rw [hctxt]
            have hnone : σ.locks.find? (fun l => l.lockid =
                if (σ.reg 1).toInt = 0 then (σ.reg 0).toInt else (σ.reg 1).toInt) = none := by
              rw [← lockid_released hlocks, ← hreg]
              exact hfind
            by_cases hzero : (σ.reg 1).toInt = 0
            · rw [if_pos hzero] at hnone
              exact ⟨hzero, hnone⟩
            · -- the lock that has been released has the id
              rw [if_neg hzero] at hnone
              have hid := (lockHeld_some ha).2.1
              exact absurd hid (of_decide_eq_false (Table.find?_eq_none.1 hnone a hmem))

/-- The three ways to fail after the release. -/
theorem sysCvarWait_fails (ha : σ.lockHeld p (σ.reg 1).toInt = some a)
    (h : σ.cvars.find? (fun c => c.cvarid = (σ.reg 0).toInt) = none ∨ σ.EndsEarly a) :
    ∃ τ, σ.sysCvarWait p = some (.ret error, τ) := by
  cases hc : σ.cvars.find? fun c => c.cvarid = (σ.reg 0).toInt with
  | none => exact ⟨_, sysCvarWait_noCvar ha hc⟩
  | some c =>
      obtain ⟨υ, hrun, ⟨q, ws, hlocks⟩, hready, hctxt, hmalloc, hany⟩ := sysCvarWait_found ha hc
      rw [hrun]
      rcases h with hnone | ⟨hidle, hnode⟩ | ⟨hempty, hzero, hfind⟩
      · exact absurd (hc.symm.trans hnone) (by simp)
      · have hlen : υ.readyQueue.length > 0 := by
          rw [hready, hidle]
          decide
        have hnext : υ.nextReady.1 = none := by
          refine (nextReady_none (List.ne_nil_of_length_pos hlen)).2 ⟨hready.trans hidle, ?_⟩
          rw [hmalloc]
          exact hnode
        refine ⟨υ.nextReady.2, ?_⟩
        unfold block normalSchedule
        rw [if_pos hlen]
        cases hn : υ.nextReady with
        | mk next φ =>
            rw [hn] at hnext
            dsimp only at hnext
            subst hnext
            rfl
      · have hnobody : υ.readyQueue = [] := hready.trans hempty
        have hreg : (υ.reg 0).toInt = (σ.reg 0).toInt := by
          unfold reg
          rw [hctxt]
        refine ⟨{ υ with fellThrough := υ.fellThrough + 1 }, ?_⟩
        unfold block normalSchedule
        rw [if_neg (by simp [hnobody])]
        change sysCvarWaitResume _ p _ _ = _
        unfold sysCvarWaitResume
        rw [if_pos (by exact hany)]
        refine (sysAcquire_alone (by exact hnobody)).2 ⟨rfl, hzero.ge, ?_⟩
        rw [if_pos hzero]
        refine Eq.trans ?_ ((lockid_released hlocks).trans hfind)
        rw [← hreg]
        rfl

/-- A CvarWait that returns `ERROR` changes nothing if and only if the caller did not hold the
lock, or there is a cvar with the id and the call does not end early. -/
theorem cvarWait_unaffected_iff :
    (∀ τ, σ.sysCvarWait p = some (.ret error, τ) → σ.Unaffected τ) ↔
      ∀ a, σ.lockHeld p (σ.reg 1).toInt = some a →
        (∃ c ∈ σ.cvars.list, (σ.cvars.cell c).cvarid = (σ.reg 0).toInt) ∧ ¬σ.EndsEarly a := by
  have hexists : (∃ c ∈ σ.cvars.list, (σ.cvars.cell c).cvarid = (σ.reg 0).toInt) ↔
      ¬σ.cvars.find? (fun c => c.cvarid = (σ.reg 0).toInt) = none := by
    rw [Table.find?_eq_none]
    simp
  constructor
  · intro h a ha
    rw [hexists, ← not_or]
    intro hfail
    obtain ⟨τ, hτ⟩ := sysCvarWait_fails ha hfail
    have hfree := (sysCvarWait_error ha hτ).1
    rw [(h τ hτ).locks, (lockHeld_some ha).2.2.2] at hfree
    exact absurd hfree (by simp)
  · intro h τ hτ
    cases ha : σ.lockHeld p (σ.reg 1).toInt with
    | none =>
        rw [sysCvarWait_notHeld ha] at hτ
        obtain ⟨-, rfl⟩ := Prod.mk.inj (Option.some.inj hτ)
        exact ⟨rfl, rfl, rfl, rfl, rfl, rfl, rfl, rfl, fun _ => rfl⟩
    | some a =>
        obtain ⟨hcvar, hearly⟩ := h a ha
        rw [hexists] at hcvar
        exact absurd (sysCvarWait_error ha hτ).2 (not_or.2 ⟨hcvar, hearly⟩)

/-- A CvarWait with the lock 1 on a cvar that does not exist. -/
def waitNowhere : Label := smallCall .cvarWait 2 1 0

/-- Init takes a lock and calls CvarWait on a cvar that does not exist: the call fails, and
the lock is free. -/
theorem cvarWait_unlocks : ∃ σ₀ tr σ σ', kernelStart smallBoot = some σ₀ ∧
    Run step Allocates σ₀ tr σ ∧
    (σ.callState waitNowhere).sysCvarWait 0 = some (.ret error, σ') ∧
    (σ.locks.cell 0).locked = true ∧ (σ.locks.cell 0).pid = 0 ∧
    (σ'.locks.cell 0).locked = false ∧ ¬(σ.callState waitNowhere).Unaffected σ' := by
  obtain ⟨σ₀, tr, σ, h₀, hr, hheld, howner, hcall⟩ := bootExec_state (b := smallBoot)
    (C := Allocates)
    (t := [smallCall .lockInit vmem1Base 0 0, smallCall .lockAcquire 1 0 0])
    (P := fun σ => (σ.locks.cell 0).locked = true ∧ (σ.locks.cell 0).pid = 0 ∧
      (((σ.callState waitNowhere).sysCvarWait 0).map fun r =>
        decide (r.1 = .ret error ∧ (r.2.locks.cell 0).locked = false)) = some true)
    (by decide +kernel)
  obtain ⟨⟨o, σ'⟩, hσ', hP⟩ := Option.map_eq_some_iff.1 hcall
  obtain ⟨rfl, hfree⟩ := of_decide_eq_true hP
  refine ⟨σ₀, tr, σ, σ', h₀, hr, hσ', hheld, howner, hfree, fun h => ?_⟩
  have hsame : σ'.locks = σ.locks := h.locks
  dsimp only at hfree
  rw [hsame, hheld] at hfree
  exact absurd hfree (by simp)

end Kernel

end Yalnix
