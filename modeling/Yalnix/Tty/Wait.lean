import Yalnix.Tty.Writer

/-!
# The queue of the terminals

`TtyStep` has one case for each thing that a step can do to `io_list` and the lines of the
terminals. A writer that continues names the terminal twice, in the variable of the loop
and in the register that the bookkeeping reads again; `Writers` has the invariant that the
two agree.
-/

namespace Yalnix

open Transition

namespace Kernel

variable {σ σ' : Kernel} {l : Label} {p q : Pid} {o : Outcome} {t r : Int}

/-! ## The invariant -/

theorem Writes.ne {k : KernelContext} (h : Writes t r k) : k ≠ .kernelStart ∧ k ≠ .preempted := by
  rcases h with rfl | rfl <;> simp

/-- A writer that is asleep or has been woken has its terminal in register 0, waits for
that terminal, and has something to transmit while it waits for the line. -/
structure Writers (σ : Kernel) : Prop where
  args : ∀ q ∈ σ.live, ¬σ.inUser q → ∀ t r, Writes t r (σ.pcb q).kctxt →
    ((σ.pcb q).uctxt.regs 0).toInt = t
  awaits : ∀ q ∈ σ.ioList, ∀ t r, Writes t r (σ.pcb q).kctxt → σ.Awaits t q
  chunk : ∀ q ∈ σ.ioList, ∀ t r, (σ.pcb q).kctxt = .ttyBusy t r → 0 < r

/-- A step leaves its process in TtyWrite only where the process was in it before, or
with the terminal that the call names. -/
theorem leftAt_writes {k : KernelContext} (h : σ.leftAt l p k) (hk : Writes t r k) :
    t = ((σ.callState l).uContext.regs 0).toInt ∨
      l.event = .resume ∧ ∃ r', Writes t r' (σ.pcb p).kctxt := by
  rcases h with ⟨c, -, h⟩ | ⟨-, rfl⟩ | ⟨hl, h⟩
  · left
    cases c with
    | ttyWrite =>
        obtain ⟨r', h⟩ := h
        rcases hk with rfl | rfl <;> simp_all
    | _ => rcases hk with rfl | rfl <;> simp [blockPlaces] at h
  · exact absurd rfl hk.ne.2
  · right
    refine ⟨hl, ?_⟩
    cases hkp : (σ.pcb p).kctxt with
    | ttyBusy t' r' =>
        rw [hkp] at h
        obtain ⟨_, h⟩ := h
        exact ⟨r', .inl (by rcases hk with rfl | rfl <;> simp_all)⟩
    | ttySent t' r' =>
        rw [hkp] at h
        obtain ⟨_, h⟩ := h
        exact ⟨r', .inr (by rcases hk with rfl | rfl <;> simp_all)⟩
    | _ =>
        rw [hkp] at h
        rcases hk with rfl | rfl <;> simp [blocksAgain] at h

/-! ## What a step does to the queue -/

/-- What a step can do to the processes that wait for terminals and to the lines. -/
inductive TtyStep (σ σ' : Kernel) (l : Label) : Prop
  | same (hl : l.ack = none) (hlines : SameLines σ σ') (hio : σ'.ioList = σ.ioList)
  | reads (p : Pid) (t : Int) (hl : l.ack = none) (hlines : SameLines σ σ')
      (hp : σ.activeProc = some p) (hio : σ'.ioList = σ.ioList ++ [p])
      (hk : (σ'.pcb p).kctxt = .ttyRead t)
  | waits (p : Pid) (t r : Int) (hl : l.ack = none) (hlines : SameLines σ σ')
      (hp : σ.activeProc = some p) (hio : σ'.ioList = σ.ioList ++ [p]) (hr : 0 < r)
      (hbusy : σ.busyTerminal t = true) (hwaits : σ'.Awaits t p)
      (hk : (σ'.pcb p).kctxt = .ttyBusy t r)
  | sends (p : Pid) (t r : Int) (hl : l.ack = none) (hp : σ.activeProc = some p)
      (hio : σ'.ioList = σ.ioList ++ [p]) (hidle : σ.busyTerminal t = false)
      (hbusy : σ'.busyTerminal = Function.update σ.busyTerminal t true)
      (hsent : ∃ bytes, σ'.transmitted = σ.transmitted ++ [(t, bytes)])
      (hwaits : σ'.Awaits t p) (hk : (σ'.pcb p).kctxt = .ttySent t r)
  | received (hl : l.ack = none) (hlines : SameLines σ σ')
      (hio : ∃ q, σ.ioList = q :: σ'.ioList ∧ (σ.pcb q).state = .blockedR ∧
        isTerminal (σ.pcb q).ttyId = true)
  | raised (t : Int) (hl : l.ack = some t)
      (hbusy : σ'.busyTerminal = Function.update σ.busyTerminal t false)
      (hsent : σ'.transmitted = σ.transmitted)
      (hio : σ'.ioList = σ.ioList.eraseP fun q => σ.Awaits t q)
      (hready : ∀ q ∈ σ.ioList.find? fun q => σ.Awaits t q, q ∈ σ'.readyQueue)

/-- The processes that wait for terminals and the lines are as before. -/
theorem TtyStep.of_touches {vs : List View} (h : Touches vs σ σ') (hvs : View.terminals ∉ vs)
    (hl : l.ack = none) : TtyStep σ σ' l :=
  .same hl (.of_touches h hvs) (h.same .terminals hvs).2.2

theorem sysTtyRead_cases (hcall : σ.Calling p) (h : σ.sysTtyRead p = some (o, σ')) :
    σ' = σ ∨ SameLines σ σ' ∧ σ'.ioList = σ.ioList ++ [p] ∧
      ∃ t, (σ'.pcb p).kctxt = .ttyRead t := by
  refine (or_iff_not_imp_left.2 fun hne => ⟨sysTtyRead_sameLines h, ?_⟩)
  have hret : ∀ {v : Outcome}, some (v, σ) ≠ some (o, σ') := fun he =>
    hne (Prod.mk.inj (Option.some.inj he)).2.symm
  unfold sysTtyRead at h
  dsimp only at h
  split at h
  · exact absurd h hret
  split at h
  · exact absurd h hret
  split at h
  · exact absurd h hret
  split at h
  · exact absurd h hret
  have hset : Requeues 0 σ (σ.setPcb p { σ.pcb p with
      ttyId := (σ.reg 0).toInt, buf := σ.reg 1, len := (σ.reg 2).toInt, state := .blockedR }) :=
    .of_touches (setPcb_touches_buffers (by rfl) (by rfl)) (by simp) (by simp) hcall.ok
  split at h
  · rename_i hrc
    rw [ioInsert_ok hset.ok] at hrc
    exact absurd rfl hrc
  · obtain ⟨-, ht, hk⟩ := (hcall.requeued hset).sleeps (.ioInsert hset.ok p) h
    refine ⟨(ht.same .terminals (by simp)).2.2.trans ?_, _, hk⟩
    rw [ioInsert_ok hset.ok]
    rfl

theorem sysTtyWrite_cases (h : σ.sysTtyWrite p = some (o, σ')) :
    (o = .ret error ∧ σ' = σ) ∨ σ.sysTtyWriteResume p (σ.reg 0).toInt (σ.reg 2).toInt =
      some (o, σ') := by
  have hret : some (Outcome.ret error, σ) = some (o, σ') → o = .ret error ∧ σ' = σ := fun he =>
    ⟨(Prod.mk.inj (Option.some.inj he)).1.symm, (Prod.mk.inj (Option.some.inj he)).2.symm⟩
  unfold sysTtyWrite at h
  dsimp only at h
  split at h
  · exact .inl (hret h)
  split at h
  · exact .inl (hret h)
  split at h
  · exact .inl (hret h)
  split at h
  · exact .inl (hret h)
  · exact .inr h

/-- The loop of `sys_TtyWrite`, when register 0 names its terminal. -/
theorem ttyWrite_step {σ₁ τ : Kernel} (hl : l.ack = none)
    (hb : Touches [.frames, .registers] σ σ₁) (hcall : σ₁.Calling p)
    (ht : (σ₁.reg 0).toInt = t) (h : σ₁.sysTtyWriteResume p t r = some (o, τ)) :
    TtyStep σ (finish (o, τ)) l := by
  obtain ⟨hbusy, hsent, hio⟩ := hb.same .terminals (by simp)
  have hp : σ.activeProc = some p := (hb.same .queues (by simp)).1.symm.trans hcall.active
  rcases ttyWriteLoop_cases hcall h with ⟨-, rfl, rfl⟩ |
    ⟨hr, -, rfl, hq, hwaits, ⟨hb', hlines, hk⟩ | ⟨hb', hnew, hbytes, hk⟩⟩
  · exact .of_touches (hb.seq (finish_touches _ _)) (by simp) hl
  · rw [ht] at hwaits
    rw [hbusy] at hb'
    exact .waits p t r hl ⟨hlines.1.trans hbusy, hlines.2.trans hsent⟩ hp (hq.trans (by rw [hio]))
      hr hb' hwaits hk
  · rw [ht] at hwaits
    rw [hbusy] at hb' hnew
    obtain ⟨bytes, -, hbytes⟩ := hbytes
    rw [hsent] at hbytes
    exact .sends p t _ hl hp (hq.trans (by rw [hio])) hb' hnew ⟨bytes, hbytes⟩ hwaits hk

theorem trapTtyReceiveHdl_io (h : σ.trapTtyReceiveHdl = some σ') :
    σ'.ioList = σ.ioList ∨ ∃ q, σ.ioList = q :: σ'.ioList ∧ (σ.pcb q).state = .blockedR ∧
      isTerminal (σ.pcb q).ttyId = true := by
  unfold trapTtyReceiveHdl at h
  dsimp only at h
  split at h
  swap
  · exact absurd h (by simp)
  rename_i hterm
  have hio : (σ.receiveLine σ.uContext.code.toInt).ioList = σ.ioList := rfl
  have hpcb : (σ.receiveLine σ.uContext.code.toInt).pcb = σ.pcb := rfl
  generalize σ.receiveLine σ.uContext.code.toInt = σ₁ at h hio hpcb
  rw [← hio, ← hpcb]
  cases hl : σ₁.ioList with
  | nil =>
      rw [hl, listRemove_nil] at h
      obtain rfl := Option.some.inj h
      exact .inl hl
  | cons q rest =>
      rw [hl, listRemove_cons_one] at h
      dsimp only at h
      split at h
      · obtain rfl := Option.some.inj h
        have hfound := (‹_ ∧ _› : _ ∧ _)
        exact .inr ⟨q, rfl, hfound.1, hfound.2 ▸ hterm⟩
      · exact absurd h (by simp)

/-- The transmit interrupt frees the line and takes out the first process that waits for
the terminal, whatever that process waits for. -/
theorem trapTtyTransmitHdl_io (hok : σ.mem.AllOk) (h : σ.trapTtyTransmitHdl = some σ')
    (ht : σ.uContext.code.toInt = t) :
    σ'.ioList = (σ.ioList.eraseP fun q => σ.Awaits t q) ∧
      ∀ q ∈ σ.ioList.find? fun q => σ.Awaits t q, q ∈ σ'.readyQueue := by
  subst ht
  have hwaits : (fun q => decide ((σ.pcb q).state = .blockedW ∧
      σ.uContext.code.toInt = (σ.pcb q).ttyId)) =
        fun q => decide (σ.Awaits σ.uContext.code.toInt q) := rfl
  unfold trapTtyTransmitHdl at h
  dsimp only at h
  rw [hwaits] at h
  split at h
  swap
  · exact absurd h (by simp)
  split at h
  · rename_i hfind
    obtain rfl := Option.some.inj h
    refine ⟨(List.eraseP_of_forall_not ?_).symm, by simp [hfind]⟩
    simpa using hfind
  · rename_i q hfind
    obtain rfl := Option.some.inj h
    refine ⟨rfl, fun q' hq' => ?_⟩
    obtain rfl := Option.some.inj (hfind.symm.trans hq')
    rw [readyInsert_ok (by exact hok)]
    simp

theorem tty_step (hinv : σ.Placed) (hw : σ.Writers) (h : Steps σ l σ') (ha : σ.Allocates l σ')
    (hi : σ.IdlePauses l) : TtyStep σ σ' l := by
  cases h with
  | store hl hu h =>
      exact .of_touches ((begin_touches σ l).seq (copyOut_touches h)) (by simp)
        (by simp [Label.ack, hl])
  | @call u p c o τ hl hu hv hp hc h =>
      have hack : l.ack = none := by simp [Label.ack, hl, hv]
      have hcall := hinv.calling (enter_touches σ l u) ha.begin hp (hi.ne hl hp (by simp [hv]))
      obtain ⟨hbusy, hsent, hio⟩ := (enter_touches σ l u).same .terminals (by simp)
      cases c with
      | ttyRead =>
          rcases sysTtyRead_cases hcall h with rfl | ⟨hlines, hq, t, hk⟩
          · exact .of_touches ((enter_touches σ l u).seq (finish_touches o _)) (by simp) hack
          · obtain ⟨hbusy', hsent', hio'⟩ := (finish_touches o τ).same .terminals (by simp)
            refine .reads p t hack ⟨?_, ?_⟩ hp ?_ ?_
            · rw [hbusy', hlines.1, hbusy]
            · rw [hsent', hlines.2, hsent]
            · rw [hio', hq, hio]
            · exact (((finish_touches o τ).same .contexts (by simp)).2 p).trans hk
      | ttyWrite =>
          rcases sysTtyWrite_cases h with ⟨rfl, rfl⟩ | h
          · exact .of_touches ((enter_touches σ l u).seq (finish_touches _ _)) (by simp) hack
          · exact ttyWrite_step hack (enter_touches σ l u) hcall rfl h
      | _ => exact .of_touches (call_touches (enter_touches σ l u) (sysCall_touches h) o)
              (by simp [callViews]) hack
  | @clock u τ hl hu hv h =>
      exact .of_touches ((enter_touches σ l u).seq (trapClockHdl_touches h)) (by simp)
        (by simp [Label.ack, hl, hv])
  | @abort u p o τ hl hu hv hp h =>
      refine .of_touches (call_touches (enter_touches σ l u) (sysExit_touches h) o) (by simp) ?_
      rw [Label.ack, hl]
      exact if_neg fun hsix => hv (by simp [hsix])
  | @grow u p τ hl hu hv hp hfit h =>
      exact .of_touches ((enter_touches σ l u).seq
        ((growUserStack_touches h).seq (returnUser_touches τ))) (by simp)
        (by simp [Label.ack, hl, hv])
  | @receive u τ hl hu hv h =>
      have hack : l.ack = none := by simp [Label.ack, hl, hv]
      have hlines : SameLines ((σ.begin l).enter u) τ := trapTtyReceiveHdl_sameLines h
      rcases trapTtyReceiveHdl_io h with hio | hio
      · exact .same hack hlines hio
      · exact .received hack hlines hio
  | @transmit u τ hl hu hv h =>
      obtain ⟨hbusy, hsent⟩ := trapTtyTransmitHdl_line h
      obtain ⟨hio, hready⟩ := trapTtyTransmitHdl_io (σ := (σ.begin l).enter u) ha.begin h rfl
      exact .raised u.code.toInt (by simp [Label.ack, hl, hv]) hbusy hsent hio hready
  | disk hl hu hv =>
      exact .of_touches ((enter_touches σ l _).seq (returnUser_touches _)) (by simp)
        (by simp [Label.ack, hl, hv])
  | @resume p o τ hl hu hp h =>
      have hack : l.ack = none := by simp [Label.ack, hl]
      have hwrite : ∀ t r, Writes t r (σ.pcb p).kctxt → TtyStep σ (finish (o, τ)) l := by
        intro t r hk
        have hcall := hinv.continuing ha hp hk.ne
        refine ttyWrite_step (t := t) (r := r) hack (restore_touches σ l p) hcall ?_ ?_
        · refine hw.args p (hinv.live_of_active hp) ?_ t r hk
          rintro ⟨-, hm⟩
          exact absurd (hm.symm.trans hu) (by simp)
        · rcases hk with hk | hk
          · rw [hk] at h
            exact h
          · rw [hk] at h
            exact h
      cases hk : (σ.pcb p).kctxt with
      | ttyBusy t r => exact hwrite t r (.inl hk)
      | ttySent t r => exact hwrite t r (.inr hk)
      | _ =>
          exact .of_touches (call_touches (restore_touches σ l p) (resumeCall_touches h) o)
            (by simp [hk, resumeViews]) hack

/-! ## The invariant is kept -/

/-- A process in `io_list` has been created, does not run and does not sleep in Delay. -/
theorem Placed.io_waiter (h : σ.Placed) (hq : q ∈ σ.ioList) :
    q ∈ σ.live ∧ σ.activeProc ≠ some q ∧ q ∉ σ.sleepList.map SleepInfo.pcb ∧
      q ≠ σ.nextPid := by
  have hcount := List.count_pos_iff.2 hq
  have hblocked := io_blocked (σ := σ) q
  have hocc := h.occ_le q
  have hone := h.occ_le_one q
  rw [occ, queued] at hocc hone
  have hlive : q ∈ σ.live := List.count_pos_iff.1 (by omega)
  refine ⟨hlive, ((h.asleep io_blocked).2 q hq).1, fun hs => ?_, (h.bound q hlive).2.ne⟩
  have hsleep := List.count_pos_iff.2 hs
  rw [blocked] at hone
  omega

/-- The PCB of a process in `io_list` keeps what the handlers read, and its place. -/
theorem io_keeps (hinv : σ.Placed) (hst : σ.Stacked) (hs : Steps σ l σ') (hq : q ∈ σ.ioList) :
    SameState σ σ' q ∧ (σ'.pcb q).kctxt = (σ.pcb q).kctxt := by
  obtain ⟨-, hact, hsleep, hnew⟩ := hinv.io_waiter hq
  refine ⟨step_states hs hact hsleep hnew, ?_⟩
  by_cases hk' : (σ.pcb q).kctxt = .kernelStart
  · rcases (step_suspends hs).kctxt q with he | ⟨he, -⟩ | ⟨he, -⟩
    · exact he
    · exact absurd he hact
    · exact he.trans hk'.symm
  · exact hst.kctxt hs hact hk'

theorem Awaits.keep (h : σ.Awaits t q) (hs : SameState σ σ' q) : σ'.Awaits t q :=
  ⟨hs.1.trans h.1, h.2.trans hs.2.symm⟩

/-- The processes in `io_list` after a step: those that were there, or the one that has
just queued up. -/
theorem TtyStep.mem_or (h : TtyStep σ σ' l) (hq : q ∈ σ'.ioList) :
    q ∈ σ.ioList ∨ (∃ t, (σ'.pcb q).kctxt = .ttyRead t) ∨
      (∃ t r, 0 < r ∧ σ'.Awaits t q ∧ (σ'.pcb q).kctxt = .ttyBusy t r) ∨
      ∃ t r, σ'.Awaits t q ∧ (σ'.pcb q).kctxt = .ttySent t r := by
  cases h with
  | same _ _ hio => exact .inl (hio ▸ hq)
  | reads p t _ _ _ hio hk =>
      rw [hio] at hq
      rcases List.mem_append.1 hq with hq | hq
      · exact .inl hq
      · obtain rfl := List.mem_singleton.1 hq
        exact .inr (.inl ⟨t, hk⟩)
  | waits p t r _ _ _ hio hr _ hwaits hk =>
      rw [hio] at hq
      rcases List.mem_append.1 hq with hq | hq
      · exact .inl hq
      · obtain rfl := List.mem_singleton.1 hq
        exact .inr (.inr (.inl ⟨t, r, hr, hwaits, hk⟩))
  | sends p t r _ _ hio _ _ _ hwaits hk =>
      rw [hio] at hq
      rcases List.mem_append.1 hq with hq | hq
      · exact .inl hq
      · obtain rfl := List.mem_singleton.1 hq
        exact .inr (.inr (.inr ⟨t, r, hwaits, hk⟩))
  | received _ _ hio =>
      obtain ⟨q', hio, -⟩ := hio
      exact .inl (hio ▸ List.mem_cons_of_mem _ hq)
  | raised t _ _ _ hio _ =>
      rw [hio] at hq
      exact .inl (List.mem_of_mem_eraseP hq)

theorem Writers.step (h : σ.Writers) (hinv : σ.Placed) (hst : σ.Stacked) (hs : Steps σ l σ')
    (ha : σ.Allocates l σ') (hi : σ.IdlePauses l) : σ'.Writers := by
  have htty := tty_step hinv h hs ha hi
  constructor
  · intro q hq hu t r hk
    rcases hst.left hinv hs ha hi hq hu hk.ne.1 with
      ⟨hact, hleft, husers⟩ | ⟨hact, hlive, hkctxt, husers⟩
    · rw [husers]
      rcases leftAt_writes hleft hk with ht | ⟨hl, r', hk'⟩
      · exact ht.symm
      · obtain ⟨p, -, -, hm, hp, -⟩ := hs.of_resume hl
        obtain rfl := Option.some.inj (hp.symm.trans hact)
        simp only [callState, hl, hact]
        refine h.args _ (hinv.live_of_active hact) ?_ t r' hk'
        rintro ⟨-, hm'⟩
        exact absurd (hm'.symm.trans hm) (by simp)
    · rw [husers]
      exact h.args q hlive (fun hin => hact hin.1) t r (hkctxt ▸ hk)
  · intro q hq t r hk
    rcases htty.mem_or hq with hold | ⟨t', hk'⟩ | ⟨t', r', -, hwaits, hk'⟩ | ⟨t', r', hwaits, hk'⟩
    · obtain ⟨hstate, hkctxt⟩ := io_keeps hinv hst hs hold
      exact (h.awaits q hold t r (hkctxt ▸ hk)).keep hstate
    · rcases hk with hk | hk <;> simp [hk] at hk'
    · rcases hk with hk | hk <;> simp [hk] at hk'
      exact hk'.1 ▸ hwaits
    · rcases hk with hk | hk <;> simp [hk] at hk'
      exact hk'.1 ▸ hwaits
  · intro q hq t r hk
    rcases htty.mem_or hq with hold | ⟨t', hk'⟩ | ⟨t', r', hr, -, hk'⟩ | ⟨t', r', -, hk'⟩
    · obtain ⟨-, hkctxt⟩ := io_keeps hinv hst hs hold
      exact h.chunk q hold t r (hkctxt ▸ hk)
    · simp [hk] at hk'
    · rw [hk] at hk'
      cases hk'
      exact hr
    · simp [hk] at hk'

variable {b : Boot} {σ₀ : Kernel} {tr : List (Move Kernel Label)}

theorem writers_of_run (hok : ∀ a ∈ b.procMallocs, a.ok = true) (h₀ : kernelStart b = some σ₀)
    (h : Run Kernel.step (fun σ l σ' => σ.Allocates l σ' ∧ σ.IdlePauses l) σ₀ tr σ) :
    σ.Writers := by
  induction h with
  | start =>
      have hboot := kernelStart_booted h₀
      constructor
      · intro q _ _ t r hk
        exact absurd (hboot.kctxt q) hk.ne.1
      · intro q _ t r hk
        exact absurd (hboot.kctxt q) hk.ne.1
      · intro q _ t r hk
        simp [hboot.kctxt q] at hk
  | snoc hr hs hc ih =>
      obtain ⟨hinv, hst⟩ := stacked_of_run hok h₀ hr
      exact ih.step hinv hst (step_cases hs) hc.1 hc.2

end Kernel

end Yalnix
