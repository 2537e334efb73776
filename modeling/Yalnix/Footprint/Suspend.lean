import Yalnix.Footprint.Call

/-!
# Where a step leaves processes in the kernel

A context switch writes the kernel context of the process that was active, and
of a process whose kernel stack it makes, and it saves the user context of the
process that was active. `Suspends K σ σ'` says so of a call that can leave the
active process only at a place in `K`.
-/

namespace Yalnix

/-- The frame of the first page of the kernel stack of `q`, 0 before it is made. -/
def Kernel.stack (σ : Kernel) (q : Pid) : ℕ := ((σ.space q).kStackPt 0).pfn

/-- `q` has no kernel stack yet, or it is still to be created. -/
def Kernel.Unborn (σ : Kernel) (q : Pid) : Prop := σ.stack q = 0 ∨ q = σ.nextPid

/-- The kernel contexts after a call: a process is where it was, or it was active
and is at a place in `K`, or it got a kernel stack and is to start from the initial
kernel context. A process that has been switched to has a kernel stack. Only the
process that was active and a new one get other user contexts. -/
structure Suspends (K : KernelContext → Prop) (σ σ' : Kernel) : Prop where
  kctxt : ∀ q, (σ'.pcb q).kctxt = (σ.pcb q).kctxt ∨
    (σ.activeProc = some q ∧ K (σ'.pcb q).kctxt) ∨
      ((σ'.pcb q).kctxt = .kernelStart ∧ σ.Unborn q)
  active : σ'.activeProc = σ.activeProc ∨ ∀ q, σ'.activeProc = some q → σ'.stack q ≠ 0
  users : ∀ q, (σ'.pcb q).uctxt = (σ.pcb q).uctxt ∨ σ.activeProc = some q ∨ q = σ.nextPid

/-- New kernel stacks are made from frames other than 0. -/
theorem initKStack_pfn {m : Mem} {t : PageTable} {r : Mem × PageTable}
    (h : initKStack (pages 0 1 2) m t = some r) : (r.2 0).pfn ≠ 0 := by
  change initKStack [0, 1] m t = some r at h
  simp only [initKStack] at h
  split at h
  · exact absurd h (by simp)
  rename_i hfirst
  split at h
  · exact absurd h (by simp)
  obtain rfl := Option.some.inj h
  simpa using hfirst

/-- Refills take no kernel stack away. -/
theorem Refill.stack_ne_zero {x y : Mem × (Pid → Space)} (h : Refill x y) {q : Pid}
    (hq : ((x.2 q).kStackPt 0).pfn ≠ 0) : ((y.2 q).kStackPt 0).pfn ≠ 0 := by
  refine h.induct (P := fun _ s => ((s q).kStackPt 0).pfn ≠ 0) hq (fun _ _ h => h) ?_
  intro m s p r hs _ hr
  by_cases hpq : q = p
  · subst hpq
    simpa using initKStack_pfn hr
  · simpa [hpq] using hs

/-- A call that leaves the frames alone takes no kernel stack away. -/
theorem Touches.stack_ne_zero {vs : List View} {σ σ' : Kernel} (h : Touches vs σ σ')
    (hvs : View.frames ∉ vs) {q : Pid} (hq : σ.stack q ≠ 0) : σ'.stack q ≠ 0 :=
  Refill.stack_ne_zero (x := (σ.mem, σ.space)) (h.same .frames hvs) hq

namespace Suspends

variable {K L : KernelContext → Prop} {σ σ₁ σ' : Kernel}

theorem refl (K : KernelContext → Prop) (σ : Kernel) : Suspends K σ σ :=
  ⟨fun _ => .inl rfl, .inl rfl, fun _ => .inl rfl⟩

theorem mono (h : Suspends K σ σ') (hKL : ∀ k, K k → L k) : Suspends L σ σ' :=
  ⟨fun q => (h.kctxt q).imp_right fun h => h.imp_left fun h => ⟨h.1, hKL _ h.2⟩, h.active,
    h.users⟩

/-- A call that does not touch the contexts. -/
theorem of_touches {vs : List View} (h : Touches vs σ σ')
    (hvs : View.contexts ∉ vs ∧ View.users ∉ vs) : Suspends K σ σ' :=
  ⟨fun q => .inl ((h.same .contexts hvs.1).2 q), .inl (h.same .contexts hvs.1).1,
    fun q => .inl (h.same .users hvs.2 q)⟩

/-- What comes before a context switch and takes no kernel stack away does not
matter. -/
theorem behind {vs : List View} (h : Touches vs σ σ₁)
    (hvs : View.contexts ∉ vs ∧ View.pids ∉ vs ∧ View.users ∉ vs)
    (hstack : ∀ q, σ₁.stack q = 0 → σ.stack q = 0)
    (h' : Suspends K σ₁ σ') : Suspends K σ σ' := by
  obtain ⟨hactive, hctx⟩ := h.same .contexts hvs.1
  obtain ⟨hnext, -⟩ := h.same .pids hvs.2.1
  refine ⟨fun q => ?_, ?_, fun q => ?_⟩
  · rw [← hctx q, ← hactive]
    refine (h'.kctxt q).imp_right fun h => h.imp_right fun h => ⟨h.1, ?_⟩
    exact h.2.imp (hstack q) fun hq => hq.trans hnext
  · rw [← hactive]
    exact h'.active
  · rw [← hactive, ← hnext, ← h.same .users hvs.2.2 q]
    exact h'.users q

theorem after {vs : List View} (h : Touches vs σ σ₁)
    (hvs : View.contexts ∉ vs ∧ View.pids ∉ vs ∧ View.users ∉ vs ∧ View.frames ∉ vs)
    (h' : Suspends K σ₁ σ') : Suspends K σ σ' := by
  refine .behind h ⟨hvs.1, hvs.2.1, hvs.2.2.1⟩ (fun q hq => ?_) h'
  by_contra hne
  exact h.stack_ne_zero hvs.2.2.2 hne hq

/-- What comes after a context switch and touches the registers does not matter. -/
theorem seq (h : Suspends K σ σ₁) (h' : Touches [.registers] σ₁ σ') : Suspends K σ σ' := by
  obtain ⟨hactive, hctx⟩ := h'.same .contexts (by simp)
  refine ⟨fun q => ?_, ?_, fun q => ?_⟩
  · rw [hctx q]
    exact h.kctxt q
  · rw [hactive]
    exact h.active.imp_right fun ha q hq => h'.stack_ne_zero (by simp) (ha q hq)
  · rw [h'.same .users (by simp) q]
    exact h.users q

/-- The result of a call that has not switched. -/
theorem ret {α : Type} {x y : α} {vs : List View} (h : Touches vs σ σ₁)
    (hvs : View.contexts ∉ vs ∧ View.users ∉ vs) (he : some (x, σ₁) = some (y, σ')) :
    Suspends K σ σ' := by
  obtain ⟨-, rfl⟩ := Prod.mk.inj (Option.some.inj he)
  exact of_touches h hvs

end Suspends

namespace Kernel

variable {σ σ' : Kernel} {p : Pid} {o : Outcome} {K : KernelContext → Prop}

/-! ## Scheduling -/

theorem initProcKernel_kctxt {cur : Pid} (h : σ.initProcKernel cur = some σ') (q : Pid) :
    (σ'.pcb q).kctxt = if q = cur then .kernelStart else (σ.pcb q).kctxt := by
  obtain ⟨r, -, rfl⟩ := Option.map_eq_some_iff.1 h
  by_cases hq : q = cur
  · subst hq
    simp
  · simp [hq]

theorem saveUser_kctxt (σ : Kernel) (old : Option Pid) (q : Pid) :
    ((σ.saveUser old).pcb q).kctxt = (σ.pcb q).kctxt :=
  ((saveUser_touches σ old).same .contexts (by simp)).2 q

theorem saveKernel_kctxt (σ : Kernel) (k : KernelContext) (old : Option Pid) (q : Pid) :
    ((σ.saveKernel k old).pcb q).kctxt = if old = some q then k else (σ.pcb q).kctxt := by
  cases old with
  | none => simp [saveKernel]
  | some o =>
      by_cases hq : q = o
      · subst hq
        simp [saveKernel, setPcb]
      · simp [saveKernel, setPcb, hq, Ne.symm hq]

theorem saveUser_uctxt (σ : Kernel) (old : Option Pid) (q : Pid) :
    ((σ.saveUser old).pcb q).uctxt = if old = some q then σ.uContext else (σ.pcb q).uctxt := by
  cases old with
  | none => simp [saveUser]
  | some o =>
      by_cases hq : q = o
      · subst hq
        simp [saveUser, setPcb]
      · simp [saveUser, setPcb, hq, Ne.symm hq]

/-- A context switch saves the user context of the old process, and no other. -/
theorem contextSwitch_uctxt {old : Option Pid} {new : Pid} {k : KernelContext}
    (h : σ.contextSwitch old new k = some σ') (q : Pid) :
    (σ'.pcb q).uctxt = if old = some q then σ.uContext else (σ.pcb q).uctxt := by
  unfold contextSwitch at h
  split at h
  · exact absurd h (by simp)
  obtain ⟨τ, hτ, rfl⟩ := Option.map_eq_some_iff.1 h
  have hsave := (saveKernel_touches τ k old).same .users (by simp) q
  have hinit : (τ.pcb q).uctxt = ((saveUser { σ with
      activeProc := some new, dispatched := σ.dispatched ++ [new] } old).pcb q).uctxt := by
    split at hτ
    · exact (initProcKernel_touches hτ ‹_›).same .users (by simp) q
    · obtain rfl := Option.some.inj hτ
      rfl
  change ((τ.saveKernel k old).pcb q).uctxt = _
  rw [hsave, hinit, saveUser_uctxt]

theorem contextSwitch_suspends {new : Pid} {k : KernelContext}
    (h : σ.contextSwitch σ.activeProc new k = some σ') (hk : K k) : Suspends K σ σ' := by
  have huctxt := contextSwitch_uctxt h
  unfold contextSwitch at h
  split at h
  · exact absurd h (by simp)
  obtain ⟨τ, hτ, rfl⟩ := Option.map_eq_some_iff.1 h
  have hspace : (saveUser { σ with
      activeProc := some new
      dispatched := σ.dispatched ++ [new] } σ.activeProc).space = σ.space := by
    cases σ.activeProc <;> rfl
  have hsave : ∀ q, ((saveUser { σ with
      activeProc := some new, dispatched := σ.dispatched ++ [new] } σ.activeProc).pcb q).kctxt =
      (σ.pcb q).kctxt := fun q => saveUser_kctxt { σ with
      activeProc := some new, dispatched := σ.dispatched ++ [new] } σ.activeProc q
  have hactive : (saveUser { σ with
      activeProc := some new, dispatched := σ.dispatched ++ [new] } σ.activeProc).activeProc =
      some new := by
    cases σ.activeProc <;> rfl
  -- the new process had a kernel stack, or it has got one
  have hinit : (∀ q, (τ.pcb q).kctxt = (σ.pcb q).kctxt ∨
      ((τ.pcb q).kctxt = .kernelStart ∧ σ.Unborn q)) ∧
        τ.activeProc = some new ∧ τ.stack new ≠ 0 := by
    split at hτ
    · rename_i hpfn
      refine ⟨fun q => ?_, ?_, ?_⟩
      · have hkctxt := initProcKernel_kctxt hτ q
        split at hkctxt
        · rename_i hq
          subst hq
          rw [hspace] at hpfn
          exact .inr ⟨hkctxt, .inl hpfn⟩
        · exact .inl (hkctxt.trans (hsave q))
      · obtain ⟨r, -, rfl⟩ := Option.map_eq_some_iff.1 hτ
        exact hactive
      · obtain ⟨r, hr, rfl⟩ := Option.map_eq_some_iff.1 hτ
        simpa [stack] using initKStack_pfn hr
    · rename_i hpfn
      obtain rfl := Option.some.inj hτ
      exact ⟨fun q => .inl (hsave q), hactive, hpfn⟩
  obtain ⟨hctx, hnew, hstack⟩ := hinit
  have hend : (τ.saveKernel k σ.activeProc).activeProc = some new ∧
      (τ.saveKernel k σ.activeProc).space = τ.space := by
    cases σ.activeProc <;> exact ⟨hnew, rfl⟩
  refine ⟨fun q => ?_, ?_, fun q => ?_⟩
  · have hkctxt := saveKernel_kctxt τ k σ.activeProc q
    change ((τ.saveKernel k σ.activeProc).pcb q).kctxt = _ ∨
      _ ∧ K ((τ.saveKernel k σ.activeProc).pcb q).kctxt ∨
        ((τ.saveKernel k σ.activeProc).pcb q).kctxt = _ ∧ _
    rw [hkctxt]
    split
    · exact .inr (.inl ⟨‹_›, hk⟩)
    · exact (hctx q).imp_right .inr
  · refine .inr fun q hq => ?_
    obtain rfl : new = q := Option.some.inj (hend.1.symm.trans hq)
    change (((τ.saveKernel k σ.activeProc).space new).kStackPt 0).pfn ≠ 0
    rw [hend.2]
    exact hstack
  · have hq := huctxt q
    split at hq
    · exact .inr (.inl ‹_›)
    · exact .inl hq

theorem normalSchedule_suspends {k : KernelContext} {r : Sched × Kernel}
    (h : σ.normalSchedule k = some r) (hk : K k) : Suspends K σ r.2 := by
  unfold normalSchedule at h
  split at h
  · have hnext := nextReady_touches σ
    cases hn : σ.nextReady with
    | mk next τ =>
        rw [hn] at h hnext
        cases next with
        | none =>
            obtain rfl := Option.some.inj h
            exact .of_touches hnext (by simp)
        | some next =>
            obtain ⟨τ', hτ, rfl⟩ := Option.map_eq_some_iff.1 h
            exact .after hnext (by simp) (contextSwitch_suspends hτ hk)
  · obtain rfl := Option.some.inj h
    exact ⟨fun _ => .inl rfl, .inl rfl, fun _ => .inl rfl⟩

theorem block_suspends {k : KernelContext} {after : Kernel → Option (Outcome × Kernel)}
    (hk : K k)
    (hafter : ∀ τ o τ', Touches [.queues] σ τ → after τ = some (o, τ') → Suspends K τ τ')
    (h : σ.block k after = some (o, σ')) : Suspends K σ σ' := by
  unfold block at h
  obtain ⟨⟨s, τ⟩, hs, h⟩ := Option.bind_eq_some_iff.1 h
  cases s with
  | switched =>
      obtain ⟨-, rfl⟩ := Prod.mk.inj (Option.some.inj h)
      exact normalSchedule_suspends hs hk
  | returned rc =>
      have hτ := normalSchedule_returned hs
      dsimp only at h
      split at h
      · exact .ret hτ (by simp) h
      · exact .after hτ (by simp) (hafter _ _ _ hτ h)

theorem doScheduler_suspends {r : Sched × Kernel} (h : σ.doScheduler = some r) :
    Suspends (· = .preempted) σ r.2 := by
  unfold doScheduler at h
  split at h
  · have hnext := (readyInsert_touches σ (σ.activeProc.getD nullProc)).trans
      (nextReady_touches _)
    dsimp only at h
    cases hn : ((σ.readyInsert (σ.activeProc.getD nullProc)).2).nextReady with
    | mk next τ =>
        rw [hn] at h hnext
        cases next with
        | none =>
            obtain rfl := Option.some.inj h
            exact .of_touches hnext (by simp)
        | some next =>
            obtain ⟨τ', hτ, rfl⟩ := Option.map_eq_some_iff.1 h
            have hswitch : τ.contextSwitch τ.activeProc next .preempted = some τ' := by
              rw [← hτ, (hnext.same .contexts (by simp)).1]
            exact .after hnext (by simp) (contextSwitch_suspends hswitch rfl)
  · obtain rfl := Option.some.inj h
    exact .refl _ _

/-! ## Calls -/

theorem sysFork_suspends (h : σ.sysFork p = some (o, σ')) : Suspends (fun _ => False) σ σ' := by
  unfold sysFork at h
  dsimp only at h
  split at h
  swap
  · exact .ret (malloc_touches σ) (by simp) h
  split at h
  · exact absurd h (by simp)
  -- the kernel contexts are those of the state in which the child is created
  have hchild : ∀ q, ((σ.malloc.2.createChild p σ.malloc.1).malloc.2.pcb q).kctxt =
      (σ.pcb q).kctxt ∨
        ((σ.malloc.2.createChild p σ.malloc.1).malloc.2.pcb q).kctxt = .kernelStart ∧
          σ.Unborn q := by
    intro q
    by_cases hq : q = σ.nextPid
    · refine .inr ⟨?_, .inr hq⟩
      subst hq
      simp [malloc, createChild]
    · exact .inl (by simp [malloc, createChild, hq])
  have huser : ∀ q, ((σ.malloc.2.createChild p σ.malloc.1).malloc.2.pcb q).uctxt =
      (σ.pcb q).uctxt ∨ q = σ.nextPid := by
    intro q
    by_cases hq : q = σ.nextPid
    · exact .inr hq
    · exact .inl (by simp [malloc, createChild, hq])
  split at h
  swap
  · obtain ⟨-, rfl⟩ := Prod.mk.inj (Option.some.inj h)
    exact ⟨fun q => (hchild q).imp_right .inr, .inl rfl, fun q => (huser q).imp_right .inr⟩
  obtain ⟨τ, hτ, h⟩ := Option.map_eq_some_iff.1 h
  have hinit : ∀ q, (τ.pcb q).kctxt = (σ.pcb q).kctxt ∨
      (τ.pcb q).kctxt = .kernelStart ∧ σ.Unborn q := by
    intro q
    have hkctxt := initProcKernel_kctxt hτ q
    split at hkctxt
    · exact .inr ⟨hkctxt, .inr ‹_›⟩
    · rename_i hq
      rw [hkctxt]
      simpa [setPcb, hq] using hchild q
  have hactive : τ.activeProc = σ.activeProc := by
    obtain ⟨r, -, rfl⟩ := Option.map_eq_some_iff.1 hτ
    rfl
  have hstored : ∀ q, (τ.pcb q).uctxt = (σ.pcb q).uctxt ∨ q = σ.nextPid := by
    intro q
    rw [(initProcKernel_touches_frames hτ).same .users (by simp) q]
    by_cases hq : q = σ.nextPid
    · exact .inr hq
    · simpa [setPcb, hq] using huser q
  have hend : ∀ {τ'}, Touches [.queues, .frames, .memory] τ τ' →
      Suspends (fun _ => False) σ τ' := fun h => by
    obtain ⟨hsame, hctx⟩ := h.same .contexts (by simp)
    refine ⟨fun q => ?_, .inl (hsame.trans hactive), fun q => ?_⟩
    · rw [hctx q]
      exact (hinit q).imp_right .inr
    · rw [h.same .users (by simp) q]
      exact (hstored q).imp_right .inr
  have hcopy := (copySpace_touches τ p σ.nextPid).mono (w := [.queues, .frames, .memory]) (by simp)
  split at h
  · obtain ⟨-, rfl⟩ := Prod.mk.inj h
    exact hend (hcopy.trans ((readyInsert_touches _ _).mono (by simp)))
  · obtain ⟨-, rfl⟩ := Prod.mk.inj h
    exact hend hcopy

theorem sysWait_suspends (h : σ.sysWait p = some (o, σ')) :
    Suspends (fun k => ∃ s i, k = .wait s i) σ σ' := by
  unfold sysWait at h
  dsimp only at h
  split at h
  · exact .ret (.refl [] _) (by simp) h
  obtain ⟨_, -, h⟩ := Option.bind_eq_some_iff.1 h
  split at h
  · exact .ret (.refl [] _) (by simp) h
  unfold scanDead at h
  split at h
  · refine .after (waitInsert_touches σ p) (by simp) (block_suspends ⟨_, _, rfl⟩ ?_ h)
    exact fun _ _ _ _ h => .of_touches (sysWaitResume_touches h) (by simp)
  · split at h
    · obtain ⟨τ, hτ, h⟩ := Option.map_eq_some_iff.1 h
      obtain ⟨-, rfl⟩ := Prod.mk.inj h
      exact ⟨fun q => .inl (((storeInt_touches hτ).same .contexts (by simp)).2 q),
        .inl ((storeInt_touches hτ).same .contexts (by simp)).1,
        fun q => .inl ((storeInt_touches hτ).same .users (by simp) q)⟩
    · exact absurd h (by simp)

/-- Freeing pages leaves the frame numbers in their entries. -/
theorem freePages_pfn (is : List Int) (m : Mem) (t : PageTable) (i : Int) :
    ((freePages is m t).2 i).pfn = (t i).pfn := by
  induction is generalizing m t with
  | nil => rfl
  | cons j is ih =>
      unfold freePages
      split
      · rw [ih]
        by_cases hi : i = j
        · subst hi
          simp
        · simp [hi]
      · exact ih m t

theorem freeSpace_stack (σ : Kernel) (p q : Pid) : (σ.freeSpace p).stack q = σ.stack q := by
  by_cases hq : q = p
  · subst hq
    simp [stack, freeSpace, freePages_pfn]
  · simp [stack, freeSpace, hq]

theorem sysExit_suspends {status : Word} (h : σ.sysExit p status = some (o, σ')) :
    Suspends (fun _ => False) σ σ' := by
  unfold sysExit at h
  obtain ⟨family, -, h⟩ := Option.bind_eq_some_iff.1 h
  obtain ⟨⟨rc, τ⟩, hτ, h⟩ := Option.bind_eq_some_iff.1 h
  have htell := (setFamily_touches σ family).trans (tellParent_touches hτ)
  dsimp only at h
  split at h
  · exact .ret htell (by simp) h
  have hwake := wakeParent_touches (τ.freeSpace p) (τ.family p).ppid
  have hall := (htell.seq (freeSpace_touches τ p)).seq hwake
  obtain ⟨-, hctx⟩ := hall.same .contexts (by simp)
  obtain ⟨hnext, -⟩ := hall.same .pids (by simp)
  -- no process is active when `normal_schedule` is called
  have hblock := block_suspends (K := fun _ => True) trivial
    (fun _ _ _ _ h => .ret (.refl [] _) (by simp) h) h
  have hunborn : ∀ q, ((τ.freeSpace p).wakeParent (τ.family p).ppid).stack q = 0 →
      σ.stack q = 0 := by
    intro q hq
    by_contra hne
    refine hwake.stack_ne_zero (by simp) ?_ hq
    rw [freeSpace_stack]
    exact htell.stack_ne_zero (by simp) hne
  refine ⟨fun q => ?_, ?_, fun q => ?_⟩
  · rw [← hctx q]
    rcases hblock.kctxt q with h | ⟨h, -⟩ | ⟨h, hq⟩
    · exact .inl h
    · simp at h
    · exact .inr (.inr ⟨h, hq.imp (hunborn q) fun hq => hq.trans hnext⟩)
  · rcases hblock.active with ha | ha
    · refine .inr fun q hq => ?_
      rw [ha] at hq
      exact absurd hq (by simp)
    · exact .inr ha
  · rw [← hall.same .users (by simp) q]
    rcases hblock.users q with h | h | h
    · exact .inl h
    · simp at h
    · exact .inr (.inr (h.trans hnext))

theorem sysDelay_suspends (h : σ.sysDelay p = some (o, σ')) : Suspends (· = .delay) σ σ' := by
  unfold sysDelay at h
  dsimp only at h
  split at h
  · exact .ret (.refl [] _) (by simp) h
  split at h
  · exact .ret (.refl [] _) (by simp) h
  have hsleep := insertSleepList_touches σ p (σ.reg 0).toInt
  split at h
  · exact .ret hsleep (by simp) h
  · exact .after hsleep (by simp) (block_suspends rfl
      (fun _ _ _ _ h => .ret (.refl [] _) (by simp) h) h)

theorem sysTtyRead_suspends (h : σ.sysTtyRead p = some (o, σ')) :
    Suspends (fun k => ∃ t, k = .ttyRead t) σ σ' := by
  unfold sysTtyRead at h
  dsimp only at h
  split at h
  · exact .ret (.refl [] _) (by simp) h
  split at h
  · exact .ret (.refl [] _) (by simp) h
  split at h
  · exact .ret (.refl [] _) (by simp) h
  split at h
  · exact .ret (.refl [] _) (by simp) h
  have hio := (setPcb_touches_buffers (p := p) (x := { σ.pcb p with
    ttyId := (σ.reg 0).toInt, buf := σ.reg 1, len := (σ.reg 2).toInt, state := .blockedR })
    rfl rfl).seq (ioInsert_touches _ p)
  split at h
  · exact .ret hio (by simp) h
  · exact .after hio (by simp) (block_suspends ⟨_, rfl⟩
      (fun _ _ _ _ h => .of_touches (sysTtyReadResume_touches h) (by simp)) h)

theorem ttyWriteLoop_suspends {n : ℕ} {ttyId remainBytes : Int}
    (h : ttyWriteLoop n σ p ttyId remainBytes = some (o, σ')) :
    Suspends (fun k => ∃ t r, k = .ttyBusy t r ∨ k = .ttySent t r) σ σ' := by
  induction n generalizing σ σ' o remainBytes with
  | zero => exact absurd h (by simp [ttyWriteLoop])
  | succ n ih =>
      unfold ttyWriteLoop at h
      dsimp only at h
      split at h
      · exact .ret (.refl [] _) (by simp) h
      split at h
      · split at h
        · have hw := blockWriter_touches σ p
          split at h
          · exact .ret hw (by simp) h
          · exact .after hw (by simp) (block_suspends ⟨_, _, .inl rfl⟩ (fun _ _ _ _ h => ih h) h)
        · obtain ⟨bytes, -, h⟩ := Option.bind_eq_some_iff.1 h
          have hw := (ttyTransmit_touches σ ttyId bytes).seq (blockWriter_touches _ p)
          split at h
          · exact .ret hw (by simp) h
          · exact .after hw (by simp) (block_suspends ⟨_, _, .inr rfl⟩ (fun _ _ _ _ h => ih h) h)
      · exact absurd h (by simp)

theorem pipeReadLoop_suspends {a : ℕ} {pipeId : Int} {buf : Word} {len : Int} {exist : Bool}
    (h : σ.pipeReadLoop p a pipeId buf len exist = some (o, σ')) :
    Suspends (· = .pipeRead a pipeId buf len exist) σ σ' := by
  unfold pipeReadLoop at h
  split at h
  · split at h
    · exact .after (pipeWaitInsert_touches σ a p) (by simp)
        (block_suspends rfl (fun _ _ _ _ h => absurd h (by simp)) h)
    · exact .of_touches (takeBytes_touches h) (by simp)
  · exact absurd h (by simp)

theorem acquireLoop_suspends {via : Option Int} {a : ℕ} {lockId : Int} {exist : Bool}
    (h : σ.acquireLoop p via a lockId exist = some (o, σ')) :
    Suspends (· = .acquire via a lockId exist) σ σ' := by
  unfold acquireLoop at h
  dsimp only at h
  split at h
  · split at h
    · exact .after (lockWaitInsert_touches σ a p) (by simp)
        (block_suspends rfl (fun _ _ _ _ h => absurd h (by simp)) h)
    · obtain ⟨-, rfl⟩ := Prod.mk.inj (Option.some.inj h)
      exact ⟨fun _ => .inl rfl, .inl rfl, fun _ => .inl rfl⟩
  · exact absurd h (by simp)

theorem sysAcquire_suspends {via : Option Int} {id : Int}
    (h : σ.sysAcquire p via id = some (o, σ')) :
    Suspends (fun k => ∃ a x, σ.locks.find? (fun l => l.lockid = x) = some a ∧
      k = .acquire via a x false) σ σ' := by
  unfold sysAcquire at h
  dsimp only at h
  split at h
  · exact .ret (.refl [] _) (by simp) h
  split at h
  · exact .ret (.refl [] _) (by simp) h
  · rename_i a ha
    exact (acquireLoop_suspends h).mono fun k hk => ⟨a, _, ha, hk⟩

theorem sysCvarWaitResume_suspends {cvarId lockId : Int}
    (h : σ.sysCvarWaitResume p cvarId lockId = some (o, σ')) :
    Suspends (fun k => ∃ a x, σ.locks.find? (fun l => l.lockid = x) = some a ∧
      k = .acquire (some cvarId) a x false) σ σ' := by
  unfold sysCvarWaitResume at h
  split at h
  · exact sysAcquire_suspends h
  · exact .ret (.refl [] _) (by simp) h

theorem sysCvarWait_suspends (h : σ.sysCvarWait p = some (o, σ')) :
    Suspends (fun k => (∃ a c x, k = .cvarWait a c x) ∨ ∃ v a x,
      σ.locks.find? (fun l => l.lockid = x) = some a ∧ k = .acquire v a x false) σ σ' := by
  unfold sysCvarWait at h
  dsimp only at h
  have hrel := sysRelease_touches σ p (σ.reg 1).toInt
  generalize σ.sysRelease p (σ.reg 1).toInt = r at h hrel
  split at h
  · exact .ret hrel (by simp) h
  split at h
  · exact .ret hrel (by simp) h
  rename_i a _
  have hall := hrel.seq (cvarWaitInsert_touches r.2 a p)
  refine .after hall (by simp) (block_suspends (.inl ⟨_, _, _, rfl⟩) (fun τ o τ' hτ h => ?_) h)
  refine (sysCvarWaitResume_suspends h).mono fun k ⟨b, x, hb, hk⟩ => .inr ⟨_, b, x, ?_, hk⟩
  rw [← hall.find_lock (by simp), ← hτ.find_lock (by simp), hb]

theorem sysCustom2_suspends (h : σ.sysCustom2 p = some (o, σ')) :
    Suspends (· = .semWait) σ σ' := by
  unfold sysCustom2 at h
  obtain ⟨a, -, h⟩ := Option.bind_eq_some_iff.1 h
  dsimp only at h
  split at h
  · exact .after ((Touches.semaphores _).trans (semWaitInsert_touches _ a p)) (by simp)
      (block_suspends rfl (fun _ _ _ _ h => .ret (.refl [] _) (by simp) h) h)
  · obtain ⟨-, rfl⟩ := Prod.mk.inj (Option.some.inj h)
    exact ⟨fun _ => .inl rfl, .inl rfl, fun _ => .inl rfl⟩

end Kernel

end Yalnix
