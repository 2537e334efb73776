import Yalnix.Sync.Lock

/-!
# No wake-up on a lock is lost

Release wakes one waiting process and leaves the lock free, so another process can
take it before the woken one runs, and the woken one queues up again. A process that
has been woken and has not run since is due in Acquire on the same lock. When it
runs it finds the lock held or takes it, so a free lock with waiting processes always
has one that is still due.
-/

namespace Yalnix

open Transition

namespace Kernel

variable {σ σ' : Kernel} {l : Label} {p q : Pid} {a : ℕ}

/-- In this move a Release, or the release in a CvarWait, takes `q` out of the waiting
list of the lock at `a`. -/
def ReleasesTo (a : ℕ) (q : Pid) (m : Move Kernel Label) : Prop :=
  releaseId m.label ≠ none ∧ a ∈ m.before.locks.list ∧ a ∈ m.after.locks.list ∧
    q ∈ (m.before.locks.cell a).lockWaitList ∧ q ∉ (m.after.locks.cell a).lockWaitList

/-- Process `q` has been taken out of the waiting list of the lock at `a` by a Release,
and since then it has not run and the lock has not been reclaimed. -/
def Woken (a : ℕ) (q : Pid) (tr : List (Move Kernel Label)) : Prop :=
  Since (ReleasesTo a q) (fun m => m.before.activeProc ≠ some q ∧ a ∈ m.after.locks.list) tr

/-- A process at `k` continues with the lock at `a`. -/
def Aims (σ : Kernel) (a : ℕ) (k : KernelContext) : Prop :=
  ∃ via x e, k = .acquire via a x e ∧ (e = true ∨ x = (σ.locks.cell a).lockid)

theorem Aims.ne {k : KernelContext} (h : σ.Aims a k) : k ≠ .kernelStart ∧ k ≠ .preempted := by
  obtain ⟨via, x, e, rfl, -⟩ := h
  simp

theorem LockStep.lockid (h : LockStep σ σ' l a) (ha : a ∈ σ.locks.list) :
    (σ'.locks.cell a).lockid = (σ.locks.cell a).lockid := by
  cases h with
  | same _ hcell => rw [hcell]
  | fresh hn => exact absurd ha hn
  | taken _ _ _ _ _ hcell => rw [hcell]
  | queued _ _ _ _ _ _ _ hcell => rw [hcell]
  | released _ _ _ _ hcell =>
      rcases hcell with ⟨-, hcell⟩ | ⟨q, rest, -, -, hcell⟩ <;> rw [hcell]

theorem Aims.step {k : KernelContext} (h : σ.Aims a k) (hs : LockStep σ σ' l a)
    (ha : a ∈ σ.locks.list) : σ'.Aims a k := by
  obtain ⟨via, x, e, rfl, he⟩ := h
  exact ⟨via, x, e, rfl, by rwa [hs.lockid ha]⟩

/-- A process that waits for a lock does not run. -/
theorem Placed.lock_waiter (h : σ.Placed) (ha : a ∈ σ.locks.list)
    (hq : q ∈ (σ.locks.cell a).lockWaitList) : σ.activeProc ≠ some q :=
  ((h.asleep (lock_blocked ha)).2 q hq).1

/-- A process that continues with a lock leaves it held. -/
theorem Aims.locked {k : KernelContext} {o : Outcome} {τ : Kernel} (h : σ.Aims a k)
    (ha : a ∈ σ.locks.list) (hcall : ((σ.begin l).restore q).Calling q)
    (hs : ((σ.begin l).restore q).resumeCall q k = some (o, τ)) :
    (τ.locks.cell a).locked = true := by
  obtain ⟨via, x, e, rfl, he⟩ := h
  change ((σ.begin l).restore q).sysAcquireResume q via a x e = _ at hs
  have hexist : (e || ((σ.begin l).restore q).locks.any fun l1 => l1.lockid = x) = true := by
    rcases he with rfl | rfl
    · rfl
    · exact Bool.or_eq_true_iff.2 (.inr (Table.any_eq_true.2 ⟨a, ha, decide_eq_true rfl⟩))
  unfold sysAcquireResume at hs
  dsimp only at hs
  rw [if_pos hexist] at hs
  obtain ⟨-, ⟨hheld, -, -, hwrite⟩ | ⟨-, -, -, hwrite⟩⟩ := acquireLoop_cases hcall hs
  · rw [hwrite, Table.cell_write_self (by exact ha)]
    exact hheld
  · rw [hwrite, Table.cell_write_self (by exact ha)]

/-! ## The invariant -/

/-- Waiting processes will continue with the lock, woken ones are due there, and there
is one when the lock is free and not all have been woken. -/
structure LockWaits (tr : List (Move Kernel Label)) (σ : Kernel) (a : ℕ) : Prop where
  parked : ∀ q ∈ (σ.locks.cell a).lockWaitList, σ.Aims a (σ.pcb q).kctxt
  due : ∀ q, Woken a q tr → σ.Due q (σ.pcb q).kctxt ∧ σ.Aims a (σ.pcb q).kctxt
  woken : (σ.locks.cell a).locked = false → (σ.locks.cell a).lockWaitList ≠ [] →
    ∃ q, Woken a q tr

theorem Woken.live {tr : List (Move Kernel Label)} {C : Kernel → Label → Kernel → Prop}
    {σ₀ : Kernel} (hr : Run step C σ₀ tr σ) (h : Woken a q tr) : a ∈ σ.locks.list := by
  cases hr with
  | start => exact absurd h not_since_nil
  | snoc hr hs hc =>
      rcases since_snoc.1 h with hrel | ⟨-, -, ha⟩
      · exact hrel.2.2.1
      · exact ha

variable {tr : List (Move Kernel Label)}

/-- The process that a Release wakes is due. -/
theorem LockWaits.wake (h : LockWaits tr σ a) (hinv : σ.Placed) (hst : σ.Stacked)
    (hs : Steps σ l σ') (hal : σ.Allocates l σ') (hi : σ.IdlePauses l)
    (hrel : ReleasesTo a q ⟨σ, l, σ'⟩) :
    σ'.Due q (σ'.pcb q).kctxt ∧ σ'.Aims a (σ'.pcb q).kctxt := by
  obtain ⟨-, ha, ha', hq, hq'⟩ := hrel
  have hlock := lock_step hinv hs hal hi ha'
  have haims := h.parked q hq
  have hrun := hinv.lock_waiter ha hq
  have hk := hst.kctxt hs hrun haims.ne.1
  refine ⟨⟨rfl, ?_⟩, hk ▸ haims.step hlock ha⟩
  dsimp only at hq hq'
  cases hlock with
  | same _ hcell => exact absurd (hcell ▸ hq) hq'
  | fresh hn => exact absurd ha hn
  | taken _ _ _ _ _ hcell =>
      rw [hcell] at hq'
      exact absurd hq hq'
  | queued _ _ _ _ _ _ _ hcell =>
      rw [hcell] at hq'
      exact absurd (List.mem_append_left _ hq) hq'
  | @released p x _ hp _ _ hcell =>
      rcases hcell with ⟨hnil, -⟩ | ⟨r, rest, hcons, hready, hcell⟩
      · rw [hnil] at hq
        exact absurd hq (List.not_mem_nil)
      · rw [hcell] at hq'
        rw [hcons] at hq
        obtain rfl : q = r := (List.mem_cons.1 hq).resolve_right hq'
        have hne : q ≠ idle := by
          rintro rfl
          rcases hinv.idleAt with hat | hat
          · exact haims.ne.1 hat
          · exact haims.ne.2 hat
        refine (hready hne).imp_right fun hact => ⟨hact, ?_⟩
        rcases step_active hs hp with hsame | hnone | hmode
        · exact absurd (hp.trans (hsame.symm.trans hact)) hrun
        · rw [hnone] at hact
          exact absurd hact (by simp)
        · exact hmode

theorem LockWaits.step (h : a ∈ σ.locks.list → LockWaits tr σ a)
    (hlive : ∀ q, Woken a q tr → a ∈ σ.locks.list) (hinv : σ.Placed) (hst : σ.Stacked)
    (hs : Steps σ l σ') (hal : σ.Allocates l σ') (hi : σ.IdlePauses l)
    (ha' : a ∈ σ'.locks.list) : LockWaits (tr ++ [⟨σ, l, σ'⟩]) σ' a := by
  have hlock := lock_step hinv hs hal hi ha'
  by_cases ha : a ∈ σ.locks.list
  swap
  · -- the lock is new, and nobody has ever waited for it
    cases hlock with
    | fresh _ x hcell =>
        refine ⟨fun q hq => ?_, fun q hw => ?_, fun _ hne => ?_⟩
        · rw [hcell] at hq
          exact absurd hq List.not_mem_nil
        · rcases since_snoc.1 hw with hrel | ⟨hw, -⟩
          · exact absurd hrel.2.1 ha
          · exact absurd (hlive q hw) ha
        · rw [hcell] at hne
          exact absurd rfl hne
    | same hm => exact absurd hm ha
    | taken hm => exact absurd hm ha
    | queued hm => exact absurd hm ha
    | released hm => exact absurd hm ha
  have hinvar := h ha
  -- a waiting process stays where it is
  have hkeep : ∀ q ∈ (σ.locks.cell a).lockWaitList, σ'.Aims a (σ'.pcb q).kctxt := by
    intro q hq
    have haims := hinvar.parked q hq
    rw [hst.kctxt hs (hinv.lock_waiter ha hq) haims.ne.1]
    exact haims.step hlock ha
  -- a woken process that runs leaves the lock held
  have hrun : ∀ q, Woken a q tr → σ.activeProc = some q → (σ'.locks.cell a).locked = true := by
    intro q hw hq
    obtain ⟨hdue, haims⟩ := hinvar.due q hw
    obtain ⟨-, o, τ, hcall, rfl⟩ := hdue.resume hinv hs hq
    rw [finish_locks]
    exact haims.locked ha (hinv.continuing hal hq haims.ne) hcall
  constructor
  · intro q hq
    cases hlock with
    | same _ hcell => exact hkeep q (hcell ▸ hq)
    | fresh hn => exact absurd ha hn
    | taken _ _ _ _ _ hcell =>
        rw [hcell] at hq
        exact hkeep q hq
    | queued _ _ _ _ _ hk he hcell =>
        have hid : (σ'.locks.cell a).lockid = (σ.locks.cell a).lockid := by rw [hcell]
        rw [hcell] at hq
        rcases List.mem_append.1 hq with hq | hq
        · exact hkeep q hq
        · obtain rfl := List.mem_singleton.1 hq
          exact ⟨_, _, _, hk, by rwa [hid]⟩
    | released _ _ _ _ hcell =>
        rcases hcell with ⟨-, hcell⟩ | ⟨r, rest, hcons, -, hcell⟩
        · rw [hcell] at hq
          exact hkeep q hq
        · rw [hcell] at hq
          exact hkeep q (hcons ▸ List.mem_cons_of_mem r hq)
  · intro q hw
    rcases since_snoc.1 hw with hrel | ⟨hw, hne, -⟩
    · exact hinvar.wake hinv hst hs hal hi hrel
    · obtain ⟨hdue, haims⟩ := hinvar.due q hw
      have hdue' := hdue.step hinv hst hs hal hi haims.ne hne
      rw [hdue'.kctxt]
      exact ⟨hdue', haims.step hlock ha⟩
  · intro hfree hwait
    have hold : (σ.locks.cell a).locked = false → (σ.locks.cell a).lockWaitList ≠ [] →
        ∃ q, Woken a q (tr ++ [⟨σ, l, σ'⟩]) := by
      intro hf hne
      obtain ⟨q, hw⟩ := hinvar.woken hf hne
      refine ⟨q, since_snoc.2 (.inr ⟨hw, fun hact => ?_, ha'⟩)⟩
      rw [hrun q hw hact] at hfree
      exact absurd hfree (by simp)
    cases hlock with
    | same _ hcell =>
        rw [hcell] at hfree hwait
        exact hold hfree hwait
    | fresh hn => exact absurd ha hn
    | taken _ _ _ _ _ hcell =>
        rw [hcell] at hfree
        exact absurd hfree (by simp)
    | queued _ _ _ _ hheld _ _ hcell =>
        rw [hcell] at hfree
        exact absurd (hheld.symm.trans hfree) (by simp)
    | released _ _ hx _ hcell =>
        rcases hcell with ⟨hnil, hcell⟩ | ⟨r, rest, hcons, -, hcell⟩
        · rw [hcell] at hwait
          exact absurd hnil hwait
        · have hmem : r ∈ (σ.locks.cell a).lockWaitList := hcons ▸ List.mem_cons_self
          have hnodup := (hinv.asleep (lock_blocked ha)).1
          rw [hcons] at hnodup
          have hrest : r ∉ rest := (List.nodup_cons.1 hnodup).1
          refine ⟨r, since_snoc.2 (.inl ⟨by simp [hx], ha, ha', hmem, ?_⟩)⟩
          dsimp only
          rw [hcell]
          exact hrest

/-! ## All runs -/

variable {b : Boot} {σ₀ : Kernel}

theorem lockWaits_of_run (hok : ∀ a ∈ b.procMallocs, a.ok = true) (h₀ : kernelStart b = some σ₀)
    (h : Run step (fun σ l σ' => σ.Allocates l σ' ∧ σ.IdlePauses l) σ₀ tr σ)
    (ha : a ∈ σ.locks.list) : LockWaits tr σ a := by
  induction h with
  | start =>
      rw [(kernelStart_booted h₀).locks] at ha
      exact absurd ha List.not_mem_nil
  | snoc hr hs hc ih =>
      obtain ⟨hinv, hst⟩ := stacked_of_run hok h₀ hr
      exact .step ih (fun q hw => hw.live hr) hinv hst (step_cases hs) hc.1 hc.2 ha

/-- In every run in which allocations succeed and idle only pauses, a free lock with
waiting processes has one that a Release took out of its waiting list, that is active
or ready and has not run, and so not tested the lock again, since then. -/
theorem run_lock_wakes (hok : ∀ a ∈ b.procMallocs, a.ok = true) (h₀ : kernelStart b = some σ₀)
    (h : Run step (fun σ l σ' => σ.Allocates l σ' ∧ σ.IdlePauses l) σ₀ tr σ)
    (ha : a ∈ σ.locks.list) (hfree : (σ.locks.cell a).locked = false)
    (hwait : (σ.locks.cell a).lockWaitList ≠ []) :
    ∃ q, Woken a q tr ∧ (σ.activeProc = some q ∨ q ∈ σ.readyQueue) := by
  have hinv := lockWaits_of_run hok h₀ h ha
  obtain ⟨q, hw⟩ := hinv.woken hfree hwait
  exact ⟨q, hw, (hinv.due q hw).1.place.symm.imp_left And.left⟩

/-- The theorem on a run in which two children wait for the lock that init releases. -/
theorem run_lock_wakes_children : ∃ σ₀ tr σ, kernelStart smallBoot = some σ₀ ∧
    Run step (fun σ l σ' => σ.Allocates l σ' ∧ σ.IdlePauses l) σ₀ tr σ ∧
    (σ.locks.cell 0).locked = false ∧ (σ.locks.cell 0).lockWaitList = [3] ∧
    ∃ q, Woken 0 q tr ∧ (σ.activeProc = some q ∨ q ∈ σ.readyQueue) := by
  obtain ⟨σ₀, tr, σ, h₀, hr, ha, hfree, hwait⟩ := bootExec_state (b := smallBoot)
    (C := fun σ l σ' => σ.Allocates l σ' ∧ σ.IdlePauses l)
    (t := [smallCall .lockInit vmem1Base 0 0, smallCall .lockAcquire 1 0 0,
      smallCall .fork 0 0 0, smallCall .fork 0 0 0, clockTick, resumption,
      smallCall .lockAcquire 1 0 0, resumption, smallCall .lockAcquire 1 0 0, resumption,
      smallCall .lockRelease 1 0 0])
    (P := fun σ => 0 ∈ σ.locks.list ∧ (σ.locks.cell 0).locked = false ∧
      (σ.locks.cell 0).lockWaitList = [3])
    (by decide +kernel)
  exact ⟨σ₀, tr, σ, h₀, hr, hfree, hwait,
    run_lock_wakes (by decide) h₀ hr ha hfree (by simp [hwait])⟩

end Kernel

end Yalnix
