import Yalnix.Memory.Isolation
import Yalnix.Tree.ProcessTable

/-!
# Every process keeps its own registers

`contexts` reads off the moves of a run with which user context each process should be
running: the one with which it trapped last, with the value of its call in `regs[0]`, or the
one that it starts with after the boot, a Fork or an Exec. The registers of the process in
user code and the contexts saved in the PCBs of all others are these, and a process that
sleeps in the kernel continues at the place where it has been switched out itself.
-/

namespace Yalnix

open Transition

namespace Kernel

variable {σ σ' σ₀ τ : Kernel} {l : Label} {p q : Pid} {o : Outcome} {c : Pid → UserContext}
  {tr : List (Move Kernel Label)} {b : Boot}

/-- The user context with which a process makes step `l`, if it had `c` before it. -/
def startContext (l : Label) (c : UserContext) : UserContext :=
  match l.event with
  | .trap u => u
  | _ => c

/-- Its context when the call ends with `o`; an Exec has left `loaded` in its PCB. -/
def endContext (l : Label) (c loaded : UserContext) : Option Outcome → UserContext
  | some (.ret v) => (startContext l c).setRet v
  | some .restarted => if l.call = some .exec then loaded else startContext l c
  | _ => startContext l c

/-- The user context of process `q` after a move, where the processes had the contexts `c`
before it. -/
def ownContext (c : Pid → UserContext) (m : Move Kernel Label) (q : Pid) : UserContext :=
  if m.before.activeProc = some q then
    endContext m.label (c q) (m.after.pcb q).uctxt (m.before.outcome m.label)
  else if m.label.call = some .fork ∧ q = m.before.nextPid then
    (m.before.callState m.label).uContext.setRet 0
  else c q

/-- The user contexts of the processes after the moves `tr` from `σ₀`. -/
def contexts (σ₀ : Kernel) (tr : List (Move Kernel Label)) : Pid → UserContext :=
  tr.foldl ownContext fun q => (σ₀.pcb q).uctxt

theorem contexts_snoc (m : Move Kernel Label) :
    contexts σ₀ (tr ++ [m]) = ownContext (contexts σ₀ tr) m := by
  rw [contexts, List.foldl_append]
  rfl

/-- The process in user code runs with its context, and the others have theirs in their
PCBs. -/
structure OwnContexts (c : Pid → UserContext) (σ : Kernel) : Prop where
  user : ∀ p, σ.inUser p → σ.uContext = c p
  saved : ∀ q ∈ σ.live, ¬σ.inUser q → (σ.pcb q).uctxt = c q

/-! ## The process that has run -/

theorem ownContext_of_active (hp : σ.activeProc = some p) : ownContext c ⟨σ, l, σ'⟩ p =
    endContext l (c p) (σ'.pcb p).uctxt (σ.outcome l) := if_pos hp

theorem startContext_trap {u d : UserContext} (hl : l.event = .trap u) : startContext l d = u := by
  rw [startContext, hl]

theorem startContext_resume {d : UserContext} (hl : l.event = .resume) :
    startContext l d = d := by
  rw [startContext, hl]

/-- After a trap without a call the process has the context that it trapped with. -/
theorem ownContext_trap {u : UserContext} (hp : σ.activeProc = some p) (hl : l.event = .trap u)
    (hv : u.vector ≠ 0) : ownContext c ⟨σ, l, σ'⟩ p = u := by
  have hcall : l.call = none := by simp [Label.call, hl, hv]
  have hout : σ.outcome l = none := by simp [outcome, hp, hl, hcall]
  rw [ownContext_of_active hp, hout]
  exact startContext_trap hl

theorem ownContext_switched (hp : σ.activeProc = some p) (ho : σ.outcome l = some .switched) :
    ownContext c ⟨σ, l, σ'⟩ p = startContext l (c p) := by
  rw [ownContext_of_active hp, ho]
  rfl

/-- An Exec that starts its program does so with the context in the PCB. -/
theorem sysExec_restarted (h : σ.sysExec p = some (.restarted, σ')) :
    σ'.uContext = (σ'.pcb p).uctxt := by
  unfold sysExec at h
  dsimp only at h
  split at h
  · exact absurd h (by simp)
  obtain ⟨x, -, h⟩ := Option.map_eq_some_iff.1 h
  split at h
  · exact absurd h (by simp)
  · obtain ⟨-, rfl⟩ := Prod.mk.inj h
    rfl

/-- No other call changes the registers on its way. -/
theorem sysCall_uContext {k : Call} (hne : ¬(k = .exec ∧ o = .restarted))
    (h : σ.sysCall p k = some (o, σ')) : σ'.uContext = σ.uContext := by
  by_cases hk : k = .exec
  · subst hk
    change σ.sysExec p = _ at h
    unfold sysExec at h
    dsimp only at h
    split at h
    · obtain ⟨-, rfl⟩ := Prod.mk.inj (Option.some.inj h)
      rfl
    obtain ⟨x, hload, h⟩ := Option.map_eq_some_iff.1 h
    split at h
    · obtain ⟨-, rfl⟩ := Prod.mk.inj h
      exact ((loadProgram_touches hload).same .registers (by simp)).1
    · exact absurd ⟨rfl, (Prod.mk.inj h).1.symm⟩ hne
  · have hviews : View.registers ∉ callViews k := by
      cases k <;> simp_all [callViews]
    exact ((sysCall_touches h).same .registers hviews).1

/-- The registers of a process that goes on in user code. -/
theorem OwnContexts.stays (h : OwnContexts c σ) (hinv : σ.Placed) (hinv' : σ'.Placed)
    (hs : Steps σ l σ') (ha : σ.Allocates l σ') (hp : σ.activeProc = some p)
    (hu' : σ'.inUser p) : σ'.uContext = ownContext c ⟨σ, l, σ'⟩ p := by
  have hsame : ∀ {r}, σ.activeProc = some r → r = p := fun hr =>
    Option.some.inj (hr.symm.trans hp)
  cases hs with
  | @store a b τ hl hu hcopy =>
      have hregs := ((copyOut_touches hcopy).same .registers (by simp)).1
      have hout : σ.outcome l = none := by simp [outcome, hp, hl]
      have hstart : startContext l (c p) = c p := by rw [startContext, hl]
      rw [ownContext_of_active hp, hout, hregs]
      exact (h.user p ⟨hp, hu⟩).trans hstart.symm
  | @call u r k o τ hl hu hv hr hc hrun =>
      obtain rfl := hsame hr
      have hcall : l.call = some k := by simp [Label.call, hl, hv, hc]
      have hout := outcome_call hl hv hp hc hrun
      have hexit : k ≠ .exit := by
        rintro rfl
        exact not_live_exit hinv (enter_touches σ l u) ha.begin hrun (hinv'.live_of_active hu'.1)
      have hpark := sysCall_parks (σ := (σ.begin l).enter u) hp hexit hrun
      rw [ownContext_of_active hp, hout]
      by_cases hexec : k = .exec ∧ o = .restarted
      · obtain ⟨rfl, rfl⟩ := hexec
        rw [endContext, if_pos hcall]
        exact sysExec_restarted (σ := (σ.begin l).enter u) hrun
      · have hregs : τ.uContext = startContext l (c r) :=
          (sysCall_uContext hexec hrun).trans (startContext_trap hl).symm
        cases o with
        | ret v => exact congrArg (UserContext.setRet · v) hregs
        | switched => exact absurd (hu'.2.symm.trans (hpark.kernel rfl)) (by simp)
        | restarted =>
            rw [endContext, hcall, if_neg fun he => hexec ⟨Option.some.inj he, rfl⟩]
            exact hregs
  | @clock u τ hl hu hv hrun =>
      rw [ownContext_trap hp hl (by simp [hv])]
      exact ((trapClockHdl_touches hrun).same .registers (by simp)).1
  | @abort u r o τ hl hu hv hr hrun =>
      obtain rfl := hsame hr
      exact absurd (hinv'.live_of_active hu'.1)
        (not_live_exit hinv (enter_touches σ l u) ha.begin hrun)
  | @grow u r τ hl hu hv hr hfit hrun =>
      rw [ownContext_trap hp hl (by simp [hv])]
      exact ((growUserStack_touches hrun).same .registers (by simp)).1
  | @receive u τ hl hu hv hrun =>
      rw [ownContext_trap hp hl (by simp [hv])]
      exact ((trapTtyReceiveHdl_touches hrun).same .registers (by simp)).1
  | @transmit u τ hl hu hv hrun =>
      rw [ownContext_trap hp hl (by simp [hv])]
      exact ((trapTtyTransmitHdl_touches hrun).same .registers (by simp)).1
  | @disk u hl hu hv =>
      rw [ownContext_trap hp hl (by simp [hv])]
      rfl
  | @resume r o τ hl hu hr hcall =>
      obtain rfl := hsame hr
      have hsaved : (σ.pcb r).uctxt = c r :=
        h.saved r (hinv.live_of_active hp) fun hin => absurd (hin.2.symm.trans hu) (by simp)
      have hnone : l.call = none := by simp [Label.call, hl]
      have hregs : τ.uContext = (σ.pcb r).uctxt := by
        cases hk : (σ.pcb r).kctxt with
        | kernelStart =>
            rw [hk] at hcall
            obtain ⟨-, rfl⟩ := Prod.mk.inj (Option.some.inj hcall)
            rfl
        | _ =>
            rw [hk] at hcall
            exact ((resumeCall_touches hcall).same .registers (by simp [resumeViews])).1
      have hpark := resumeCall_parks (σ := (σ.begin l).restore r) hp hcall
      have hstart : τ.uContext = startContext l (c r) :=
        (hregs.trans hsaved).trans (startContext_resume hl).symm
      rw [ownContext_of_active hp, outcome_resume hl hp hcall]
      cases o with
      | ret v => exact congrArg (UserContext.setRet · v) hstart
      | switched => exact absurd (hu'.2.symm.trans (hpark.kernel rfl)) (by simp)
      | restarted =>
          rw [endContext, hnone, if_neg (by simp)]
          exact hstart

/-- The context that is saved of a process that is switched out. -/
theorem OwnContexts.leaves (h : OwnContexts c σ) (hinv : σ.Placed) (hs : Steps σ l σ')
    (hp : σ.activeProc = some p) (hu' : ¬σ'.inUser p) (hleft : σ.leftAt l p (σ'.pcb p).kctxt) :
    (σ.callState l).uContext = ownContext c ⟨σ, l, σ'⟩ p := by
  rcases hleft with ⟨k, hcall, hplace⟩ | ⟨hv, -⟩ | ⟨hl, -⟩
  · have hexit : k ≠ .exit := by
      rintro rfl
      simp [blockPlaces] at hplace
    obtain ⟨u, hl, hv, hrun⟩ := hs.blocked_call hcall hexit hp hu'
    have hdecode : Call.decode u.code = some k := by
      simpa [Label.call, hl, hv] using hcall
    rw [ownContext_switched hp (outcome_call hl hv hp hdecode hrun), callState_trap hl,
      startContext_trap hl]
    rfl
  · cases hl : l.event with
    | trap u =>
        have hv : u.vector = 1 := by simpa [Label.vector, hl] using hv
        rw [ownContext_trap hp hl (by simp [hv]), callState_trap hl]
        rfl
    | resume => simp [Label.vector, hl] at hv
    | store a b => simp [Label.vector, hl] at hv
  · have hrun := hs.blocked_resume hl hp hu'
    obtain ⟨r, -, -, hm, -⟩ := hs.of_resume hl
    have hsaved : (σ.pcb p).uctxt = c p :=
      h.saved p (hinv.live_of_active hp) fun hin => absurd (hin.2.symm.trans hm) (by simp)
    rw [ownContext_switched hp (outcome_resume hl hp hrun), startContext_resume hl, ← hsaved,
      show σ.callState l = (σ.begin l).restore p by simp [callState, hl, hp]]
    rfl

/-- The child of a Fork starts with the context of its parent. -/
theorem fork_uctxt (hinv : σ.Placed) (hs : Steps σ l σ') (ha : σ.Allocates l σ')
    (hc : l.call = some .fork) :
    (σ'.pcb σ.nextPid).uctxt = (σ.callState l).uContext.setRet 0 := by
  obtain ⟨u, r, o, τ, hl, -, hr, hrun, rfl, -⟩ := hs.of_call hc
  obtain ⟨h₀, hlt⟩ := hinv.bound r (hinv.live_of_active hr)
  have href : τ.mem.refused = ((σ.begin l).enter u).mem.refused := by
    rw [← finish_mem o, ha.2]
    rfl
  obtain ⟨τ', hforked, -, -, rfl⟩ := sysFork_forked
    (show ((σ.begin l).enter u).mem.AllOk from ha.begin) h₀ hlt hrun href
  rw [callState_trap hl, (finish_touches o _).same .users (by simp),
    (readyInsert_touches τ' _).same .users (by simp)]
  exact congrArg Pcb.uctxt hforked.context

theorem OwnContexts.step (h : OwnContexts c σ) (hinv : σ.Placed) (hs : Steps σ l σ')
    (ha : σ.Allocates l σ') (hi : σ.IdlePauses l) :
    OwnContexts (ownContext c ⟨σ, l, σ'⟩) σ' := by
  have hinv' := hinv.step hs ha hi
  obtain ⟨p, hp⟩ := Option.ne_none_iff_exists'.1 hinv.active
  constructor
  · intro q hu'
    rcases step_active hs hp with hact | hact | hmode
    · obtain rfl := Option.some.inj (hact.symm.trans hu'.1)
      exact h.stays hinv hinv' hs ha hp hu'
    · exact absurd hact hinv'.active
    · exact absurd (hu'.2.symm.trans hmode) (by simp)
  · intro q hq hu'
    by_cases hact : σ.activeProc = some q
    · obtain rfl := Option.some.inj (hp.symm.trans hact)
      rcases step_leaves hinv hs ha hp with hin | ⟨hleft, husers, -⟩ | hlive
      · exact absurd hin hu'
      · exact husers.trans (h.leaves hinv hs hp hu' hleft)
      · exact absurd hq hlive
    · rw [ownContext, if_neg hact]
      rcases (step_settles hinv hs ha hi).live_or hq with hold | rfl
      · have hne : q ≠ σ.nextPid := ne_of_lt (hinv.bound q hold).2
        rw [if_neg fun he => hne he.2]
        exact (((step_suspends hs).users q).resolve_right (not_or.2 ⟨hact, hne⟩)).trans
          (h.saved q hold fun hin => hact hin.1)
      · have hnew : σ'.nextPid ≠ σ.nextPid := fun he =>
          lt_irrefl _ (he ▸ (hinv'.bound _ hq).2)
        cases link_step hs with
        | cut _ hnext => exact absurd hnext hnew
        | link _ _ hcreates =>
            rw [if_pos ⟨hcreates.2.1, rfl⟩]
            exact fork_uctxt hinv hs ha hcreates.2.1

theorem ownContexts_boot (h₀ : kernelStart b = some σ₀) : OwnContexts (contexts σ₀ []) σ₀ := by
  refine ⟨fun p hu => ?_, fun _ _ _ => rfl⟩
  obtain rfl := Option.some.inj ((kernelStart_booted h₀).active.symm.trans hu.1)
  unfold kernelStart at h₀
  obtain ⟨m, -, h₀⟩ := Option.bind_eq_some_iff.1 h₀
  obtain ⟨σ₁, -, h₀⟩ := Option.bind_eq_some_iff.1 h₀
  obtain ⟨σ₂, -, h₀⟩ := Option.bind_eq_some_iff.1 h₀
  obtain ⟨r, -, rfl⟩ := Option.map_eq_some_iff.1 h₀
  rfl

/-- The last time that `q` ran it has been switched out at the place where it is. -/
def LeftThere (tr : List (Move Kernel Label)) (σ : Kernel) (q : Pid) : Prop :=
  Since (fun m => m.before.activeProc = some q ∧ m.before.leftAt m.label q (σ.pcb q).kctxt)
    (fun m => m.before.activeProc ≠ some q) tr

theorem leftThere_of_run (hok : ∀ a ∈ b.procMallocs, a.ok = true)
    (h₀ : kernelStart b = some σ₀)
    (h : Run Kernel.step (fun σ l σ' => σ.Allocates l σ' ∧ σ.IdlePauses l) σ₀ tr σ) :
    ∀ q ∈ σ.live, ¬σ.inUser q → (σ.pcb q).kctxt ≠ .kernelStart → LeftThere tr σ q := by
  induction h with
  | start =>
      intro q _ _ hk
      exact absurd ((kernelStart_booted h₀).kctxt q) hk
  | @snoc tr σ σ' l hr hs hc ih =>
      intro q hq hu hk
      obtain ⟨hinv, hst⟩ := stacked_of_run hok h₀ hr
      unfold LeftThere
      rw [since_snoc]
      rcases hst.left hinv (step_cases hs) hc.1 hc.2 hq hu hk with
        ⟨hact, hleft, -⟩ | ⟨hact, hlive, hkctxt, -⟩
      · exact .inl ⟨hact, hleft⟩
      · have hbefore := ih q hlive (fun hin => hact hin.1) (hkctxt ▸ hk)
        unfold LeftThere at hbefore
        rw [← hkctxt] at hbefore
        exact .inr ⟨hbefore, hact⟩

/-- In every run in which allocations succeed and idle only pauses, the process in user code
runs with its own page table and its own registers; and every other process has its own
registers in its PCB and, once it has run, will continue where it was itself switched out
the last time that it ran. -/
theorem run_contexts (hok : ∀ a ∈ b.procMallocs, a.ok = true) (h₀ : kernelStart b = some σ₀)
    (h : Run Kernel.step (fun σ l σ' => σ.Allocates l σ' ∧ σ.IdlePauses l) σ₀ tr σ) :
    (∀ p, σ.inUser p → σ.ptbr1 = some p ∧ σ.uContext = contexts σ₀ tr p) ∧
      ∀ q ∈ σ.live, ¬σ.inUser q → (σ.pcb q).uctxt = contexts σ₀ tr q ∧
        ((σ.pcb q).kctxt ≠ .kernelStart → LeftThere tr σ q) := by
  have hown : OwnContexts (contexts σ₀ tr) σ := by
    induction h with
    | start => exact ownContexts_boot h₀
    | snoc hr hs hc ih =>
        have hinv := (stacked_of_run hok h₀ hr).1
        rw [contexts_snoc]
        exact ih.step hinv (step_cases hs) hc.1 hc.2
  obtain ⟨-, hmap⟩ := mapped_of_run hok h₀ h
  refine ⟨fun p hu => ⟨(hmap hu.2).trans hu.1, hown.user p hu⟩, fun q hq hu => ?_⟩
  exact ⟨hown.saved q hq hu, leftThere_of_run hok h₀ h q hq hu⟩

/-- The theorem on a run in which init waits in a Delay while its child runs. -/
theorem run_contexts_child : ∃ σ₀ tr σ, kernelStart smallBoot = some σ₀ ∧
    Run Kernel.step (fun σ l σ' => σ.Allocates l σ' ∧ σ.IdlePauses l) σ₀ tr σ ∧
    (σ.inUser 2 ∧ (0 ∈ σ.live ∧ ¬σ.inUser 0) ∧ (σ.pcb 0).kctxt = .delay) ∧
    (∀ p, σ.inUser p → σ.ptbr1 = some p ∧ σ.uContext = contexts σ₀ tr p) ∧
      ∀ q ∈ σ.live, ¬σ.inUser q → (σ.pcb q).uctxt = contexts σ₀ tr q ∧
        ((σ.pcb q).kctxt ≠ .kernelStart → LeftThere tr σ q) := by
  obtain ⟨σ₀, tr, σ, h₀, hr, hP⟩ := bootExec_state (b := smallBoot)
    (C := fun σ l σ' => σ.Allocates l σ' ∧ σ.IdlePauses l)
    (P := fun σ => σ.inUser 2 ∧ (0 ∈ σ.live ∧ ¬σ.inUser 0) ∧ (σ.pcb 0).kctxt = .delay)
    (t := [smallCall .fork 0 0 0, smallCall .delay 3 0 0, resumption])
    (by decide +kernel)
  exact ⟨σ₀, tr, σ, h₀, hr, hP, run_contexts (by simp [smallBoot]) h₀ hr⟩

end Kernel

end Yalnix
