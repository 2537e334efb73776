import Yalnix.Footprint.Suspend

/-!
# What a step does

`Steps σ l σ'` has one case for each thing that a step can be: a store of the
active process, a kernel call, one of the other traps, or the continuation of a
call after a switch. `step_cases` says that there are no others, so an invariant
of runs is proved by cases on `Steps` and not on `step`. The second part has the
footprints of the pieces around a call and of all calls together.
-/

namespace Yalnix

namespace Kernel

/-- The trap `v` of process `p` is one whose handler calls `sys_Exit`. -/
def Aborts (σ : Kernel) (p : Pid) (v : Int) : Prop :=
  v = 2 ∨ v = 4 ∨ 8 ≤ v ∧ v < 16 ∨
    v = 3 ∧ ¬(σ.stackEnd ≤ (σ.space p).nextStackPn ∧ σ.stackEnd > (σ.space p).nextHeapPn)

instance (σ : Kernel) (p : Pid) (v : Int) : Decidable (σ.Aborts p v) :=
  inferInstanceAs (Decidable (_ ∨ _ ∨ _ ∨ _))

/-- The things that a step of the machine can be. -/
inductive Steps (σ : Kernel) (l : Label) : Kernel → Prop
  | store {a : Word} {b : Byte} {τ : Kernel} (hl : l.event = .store a b)
      (hu : σ.userMode = true) (h : (σ.begin l).copyOut a [b] = some τ) : Steps σ l τ
  | call {u : UserContext} {p : Pid} {c : Call} {o : Outcome} {τ : Kernel}
      (hl : l.event = .trap u) (hu : σ.userMode = true) (hv : u.vector = 0)
      (hp : σ.activeProc = some p) (hc : Call.decode u.code = some c)
      (h : ((σ.begin l).enter u).sysCall p c = some (o, τ)) : Steps σ l (finish (o, τ))
  | clock {u : UserContext} {τ : Kernel} (hl : l.event = .trap u) (hu : σ.userMode = true)
      (hv : u.vector = 1) (h : ((σ.begin l).enter u).trapClockHdl = some τ) : Steps σ l τ
  | abort {u : UserContext} {p : Pid} {o : Outcome} {τ : Kernel} (hl : l.event = .trap u)
      (hu : σ.userMode = true) (hv : u.vector ∉ ([0, 1, 5, 6, 7] : List Int))
      (hp : σ.activeProc = some p)
      (h : ((σ.begin l).enter u).sysExit p abortStatus = some (o, τ))
      (hx : ((σ.begin l).enter u).Aborts p u.vector) : Steps σ l (finish (o, τ))
  | grow {u : UserContext} {p : Pid} {τ : Kernel} (hl : l.event = .trap u)
      (hu : σ.userMode = true) (hv : u.vector = 3) (hp : σ.activeProc = some p)
      (hfit : ((σ.begin l).enter u).stackEnd ≤ (σ.space p).nextStackPn ∧
        ((σ.begin l).enter u).stackEnd > (σ.space p).nextHeapPn)
      (h : ((σ.begin l).enter u).growUserStack p = some τ) : Steps σ l τ.returnUser
  | receive {u : UserContext} {τ : Kernel} (hl : l.event = .trap u) (hu : σ.userMode = true)
      (hv : u.vector = 5) (h : ((σ.begin l).enter u).trapTtyReceiveHdl = some τ) :
      Steps σ l τ.returnUser
  | transmit {u : UserContext} {τ : Kernel} (hl : l.event = .trap u) (hu : σ.userMode = true)
      (hv : u.vector = 6) (h : ((σ.begin l).enter u).trapTtyTransmitHdl = some τ) :
      Steps σ l τ.returnUser
  | disk {u : UserContext} (hl : l.event = .trap u) (hu : σ.userMode = true)
      (hv : u.vector = 7) : Steps σ l ((σ.begin l).enter u).returnUser
  | resume {p : Pid} {o : Outcome} {τ : Kernel} (hl : l.event = .resume)
      (hu : σ.userMode = false) (hp : σ.activeProc = some p)
      (h : ((σ.begin l).restore p).resumeCall p (σ.pcb p).kctxt = some (o, τ)) :
      Steps σ l (finish (o, τ))

variable {σ σ' : Kernel} {l : Label} {p : Pid} {o : Outcome} {K : KernelContext → Prop}

theorem trapAbortHdl_steps {u : UserContext} (hl : l.event = .trap u) (hu : σ.userMode = true)
    (hv : u.vector ∉ ([0, 1, 5, 6, 7] : List Int)) (hp : σ.activeProc = some p)
    (hx : ((σ.begin l).enter u).Aborts p u.vector)
    (h : ((σ.begin l).enter u).trapAbortHdl p = some σ') : Steps σ l σ' := by
  obtain ⟨⟨o, τ⟩, hexit, rfl⟩ := Option.map_eq_some_iff.1 h
  exact .abort hl hu hv hp hexit hx

theorem handler_steps {u : UserContext} (hl : l.event = .trap u) (hu : σ.userMode = true)
    (h : ((σ.begin l).enter u).handler u.vector = some σ') : Steps σ l σ' := by
  have habort : ∀ {v : Int}, u.vector = v → v ∉ ([0, 1, 5, 6, 7] : List Int) →
      v = 2 ∨ v = 4 ∨ 8 ≤ v ∧ v < 16 →
      (((σ.begin l).enter u).activeProc.bind fun p => ((σ.begin l).enter u).trapAbortHdl p) =
        some σ' → Steps σ l σ' := by
    intro v hv hmem hx h
    obtain ⟨p, hp, h⟩ := Option.bind_eq_some_iff.1 h
    exact trapAbortHdl_steps hl hu (hv ▸ hmem) hp (by unfold Aborts; omega) h
  unfold handler at h
  split at h
  · rename_i hv
    obtain ⟨p, hp, h⟩ := Option.bind_eq_some_iff.1 h
    obtain ⟨c, hc, h⟩ := Option.bind_eq_some_iff.1 h
    obtain ⟨⟨o, τ⟩, hcall, rfl⟩ := Option.map_eq_some_iff.1 h
    exact .call hl hu hv hp hc hcall
  · rename_i hv
    exact .clock hl hu hv h
  · rename_i hv
    exact habort hv (by simp) (by simp) h
  · rename_i hv
    obtain ⟨p, hp, h⟩ := Option.bind_eq_some_iff.1 h
    unfold trapMemoryHdl at h
    dsimp only at h
    split at h
    · obtain ⟨τ, hτ, rfl⟩ := Option.map_eq_some_iff.1 h
      exact .grow hl hu hv hp ‹_› hτ
    · exact trapAbortHdl_steps hl hu (by simp [hv]) hp (.inr (.inr (.inr ⟨hv, ‹_›⟩))) h
  · rename_i hv
    exact habort hv (by simp) (by simp) h
  · rename_i hv
    obtain ⟨τ, hτ, rfl⟩ := Option.map_eq_some_iff.1 h
    exact .receive hl hu hv hτ
  · rename_i hv
    obtain ⟨τ, hτ, rfl⟩ := Option.map_eq_some_iff.1 h
    exact .transmit hl hu hv hτ
  · rename_i hv
    obtain rfl := Option.some.inj h
    exact .disk hl hu hv
  · rename_i h₀ h₁ _ _ _ h₅ h₆ h₇
    split at h
    · rename_i hrange
      refine habort rfl ?_ (.inr (.inr hrange)) h
      simp only [List.mem_cons, List.not_mem_nil, or_false, not_or]
      exact ⟨h₀, h₁, h₅, h₆, h₇⟩
    · exact absurd h (by simp)

/-- A step is one of `Steps`. -/
theorem step_cases (h : σ.step l = some σ') : Steps σ l σ' := by
  unfold step at h
  split at h
  · rename_i u hl
    split at h
    · exact handler_steps hl ‹_› h
    · exact absurd h (by simp)
  · rename_i hl
    split at h
    · exact absurd h (by simp)
    · rename_i hu
      obtain ⟨p, hp, h⟩ := Option.bind_eq_some_iff.1 h
      obtain ⟨⟨o, τ⟩, hcall, rfl⟩ := Option.map_eq_some_iff.1 h
      exact .resume hl (by simpa using hu) hp hcall
  · rename_i a b hl
    split at h
    · exact .store hl ‹_› h
    · exact absurd h (by simp)

/-- The process that the step makes exit, and its status. -/
def exiting (σ : Kernel) (l : Label) : Option (Pid × Word) :=
  match l.event with
  | .trap u =>
      if σ.userMode then
        σ.activeProc.bind fun p =>
          if l.call = some .exit then some (p, u.regs 0)
          else if ((σ.begin l).enter u).Aborts p u.vector then some (p, abortStatus)
          else none
      else none
  | _ => none

theorem exiting_call {u : UserContext} (hl : l.event = .trap u) (hu : σ.userMode = true)
    (hp : σ.activeProc = some p) (hc : l.call = some .exit) :
    σ.exiting l = some (p, u.regs 0) := by
  simp [exiting, hl, hu, hp, hc]

theorem exiting_abort {u : UserContext} (hl : l.event = .trap u) (hu : σ.userMode = true)
    (hp : σ.activeProc = some p) (hv : u.vector ≠ 0)
    (hx : ((σ.begin l).enter u).Aborts p u.vector) : σ.exiting l = some (p, abortStatus) := by
  have hc : l.call ≠ some .exit := by simp [Label.call, hl, hv]
  simp [exiting, hl, hu, hp, hc, hx]

/-! ## Around a call -/

theorem begin_touches (σ : Kernel) (l : Label) : Touches [.frames] σ (σ.begin l) := by
  refine ⟨fun v hv => ?_⟩
  cases v with
  | frames => simp at hv
  | _ => simp [View.Same, queued, blocked, begin]

theorem enter_touches (σ : Kernel) (l : Label) (u : UserContext) :
    Touches [.frames, .registers] σ ((σ.begin l).enter u) :=
  (begin_touches σ l).seq (.registers ..)

theorem restore_touches (σ : Kernel) (l : Label) (p : Pid) :
    Touches [.frames, .registers] σ ((σ.begin l).restore p) :=
  (begin_touches σ l).seq (.registers ..)

theorem returnUser_touches (σ : Kernel) : Touches [] σ σ.returnUser := .hidden ..

theorem startUser_touches (σ : Kernel) (p : Pid) : Touches [.registers] σ (σ.startUser p) :=
  .registers ..

theorem finish_touches (o : Outcome) (σ : Kernel) :
    Touches [.registers] σ (finish (o, σ)) := by
  cases o with
  | ret v => exact .registers ..
  | switched => exact .refl _ σ
  | restarted => exact .refl _ σ

/-- A call, with what comes before and after it in its step. -/
theorem call_touches {vs : List View} {σ₁ τ : Kernel} (hb : Touches [.frames, .registers] σ σ₁)
    (h : Touches vs σ₁ τ) (o : Outcome) :
    Touches (.frames :: .registers :: vs) σ (finish (o, τ)) :=
  ((hb.mono (by simp)).trans (h.mono fun v hv => by simp [hv])).trans
    ((finish_touches o τ).mono (by simp))

theorem trapClockHdl_touches (h : σ.trapClockHdl = some σ') :
    Touches [.queues, .contexts, .users, .states, .sleepers] σ σ' := by
  obtain ⟨⟨s, τ⟩, hs, rfl⟩ := Option.map_eq_some_iff.1 h
  have hτ := ((updateSleepList_touches σ).seq (doScheduler_touches hs)).mono
    (w := [.queues, .contexts, .users, .states, .sleepers]) (by simp)
  cases s with
  | switched => exact hτ
  | returned => exact hτ.trans ((returnUser_touches τ).mono (List.nil_subset _))

theorem growUserStack_touches (h : σ.growUserStack p = some σ') : Touches [.frames] σ σ' := by
  obtain ⟨r, -, rfl⟩ := Option.map_eq_some_iff.1 h
  refine ⟨fun v hv => ?_⟩
  cases v with
  | frames => simp at hv
  | _ => simp [View.Same, queued, blocked]

/-! ## All calls together -/

/-- What a kernel call touches, by its name. -/
def callViews : Call → List View
  | .brk => [.frames]
  | .exec => [.frames, .users, .memory, .registers]
  | .fork => [.queues, .contexts, .users, .pids, .tree, .frames, .states, .buffers, .memory]
  | .exit => [.queues, .contexts, .users, .pids, .tree, .frames]
  | .wait => [.queues, .contexts, .users, .tree, .memory]
  | .delay => [.queues, .contexts, .users, .states, .sleepers]
  | .ttyRead => [.queues, .contexts, .users, .terminals, .states, .buffers, .memory]
  | .ttyWrite => [.queues, .contexts, .users, .terminals, .states]
  | .getpid => []
  | .pipeInit => [.objects, .pipes, .memory]
  | .pipeRead => [.queues, .contexts, .users, .pipes, .memory]
  | .pipeWrite => [.queues, .pipes]
  | .lockInit => [.objects, .locks, .lockTable, .memory]
  | .lockAcquire => [.queues, .contexts, .users, .locks, .lockTable]
  | .lockRelease => [.queues, .locks, .lockTable]
  | .cvarInit => [.objects, .cvars, .memory]
  | .cvarSignal | .cvarBroadcast => [.queues, .cvars]
  | .cvarWait => [.queues, .contexts, .users, .locks, .lockTable, .cvars]
  | .reclaim => [.queues, .objects, .locks, .pipes, .lockTable, .cvars]
  | .custom0 | .custom1 => [.queues, .sems]
  | .custom2 => [.queues, .contexts, .users, .sems]

theorem sysCall_touches {c : Call} (h : σ.sysCall p c = some (o, σ')) :
    Touches (callViews c) σ σ' := by
  cases c with
  | brk => exact sysBrk_touches h
  | fork => exact sysFork_touches h
  | exec => exact sysExec_touches h
  | exit => exact sysExit_touches h
  | wait => exact sysWait_touches h
  | delay => exact sysDelay_touches h
  | getpid => exact .ret (.refl _ σ) h
  | ttyRead => exact sysTtyRead_touches h
  | ttyWrite => exact sysTtyWrite_touches h
  | pipeInit => exact sysPipeInit_touches (p := p) h
  | pipeRead => exact sysPipeRead_touches h
  | pipeWrite => exact sysPipeWrite_touches h
  | lockInit => exact sysLockInit_touches (p := p) h
  | lockAcquire => exact sysAcquire_touches (show σ.sysAcquire p none 0 = _ from h)
  | lockRelease => exact .ret (sysRelease_touches σ p (σ.reg 0).toInt) h
  | cvarInit => exact sysCvarInit_touches (p := p) h
  | cvarSignal => exact sysCvarSignal_touches (p := p) h
  | cvarBroadcast => exact sysCvarBroadcast_touches (p := p) h
  | cvarWait => exact sysCvarWait_touches h
  | reclaim => exact sysReclaim_touches h
  | custom0 => exact sysCustom0_touches (p := p) h
  | custom1 => exact sysCustom1_touches (p := p) h
  | custom2 => exact sysCustom2_touches h

/-- What a call touches after a switch, by the place where it continues. -/
def resumeViews : KernelContext → List View
  | .kernelStart => [.registers]
  | .preempted | .delay | .semWait => []
  | .ttyRead _ => [.buffers, .memory]
  | .wait _ _ => [.tree, .memory]
  | .ttyBusy _ _ | .ttySent _ _ => [.queues, .contexts, .users, .terminals, .states]
  | .pipeRead _ _ _ _ _ => [.queues, .contexts, .users, .pipes, .memory]
  | .acquire _ _ _ _ | .cvarWait _ _ _ => [.queues, .contexts, .users, .locks, .lockTable]

theorem resumeCall_touches {k : KernelContext} (h : σ.resumeCall p k = some (o, σ')) :
    Touches (resumeViews k) σ σ' := by
  cases k with
  | kernelStart => exact .ret (startUser_touches σ p) h
  | preempted => exact .ret (returnUser_touches σ) h
  | wait s i => exact sysWaitResume_touches h
  | delay => exact .ret (.refl _ σ) h
  | ttyRead t => exact sysTtyReadResume_touches h
  | ttyBusy t r => exact sysTtyWriteResume_touches h
  | ttySent t r => exact sysTtyWriteResume_touches h
  | pipeRead a i b n e => exact sysPipeReadResume_touches h
  | acquire v a x e => exact sysAcquireResume_touches h
  | cvarWait a c x => exact sysCvarWaitResume_touches h
  | semWait => exact .ret (.refl _ σ) h

/-- Only kernel calls and their continuations touch the objects. -/
theorem Steps.quiet {v : View} (h : Steps σ l σ') (hc : l.call = none) (hr : l.event ≠ .resume)
    (hv : v ∈ [View.objects, .locks, .pipes, .lockTable, .cvars, .sems]) : v.Same σ σ' := by
  have hvs : ∀ {vs : List View}, (∀ w ∈ vs, w ∉ [View.objects, .locks, .pipes, .lockTable, .cvars,
      .sems]) → v ∉ vs := fun hws hm => hws v hm hv
  have hend : ∀ {u : UserContext} {τ : Kernel} {vs : List View},
      Touches vs ((σ.begin l).enter u) τ →
      (∀ w ∈ vs, w ∉ [View.objects, .locks, .pipes, .lockTable, .cvars, .sems]) →
        v.Same σ τ := fun ht hws =>
    ((enter_touches σ l _).seq ht).same v (hvs (by simpa using hws))
  cases h with
  | store hl hu h => exact ((begin_touches σ l).seq (copyOut_touches h)).same v (hvs (by simp))
  | call hl hu hz hp hd h => simp [Label.call, hl, hz, hd] at hc
  | clock hl hu hz h => exact hend (trapClockHdl_touches h) (by simp)
  | abort hl hu hz hp h => exact hend ((sysExit_touches h).seq (finish_touches _ _)) (by simp)
  | grow hl hu hz hp hfit h =>
      exact hend ((growUserStack_touches h).seq (returnUser_touches _)) (by simp)
  | receive hl hu hz h =>
      exact hend ((trapTtyReceiveHdl_touches h).seq (returnUser_touches _)) (by simp)
  | transmit hl hu hz h =>
      exact hend ((trapTtyTransmitHdl_touches h).seq (returnUser_touches _)) (by simp)
  | disk hl hu hz => exact hend (returnUser_touches _) (by simp)
  | resume hl => exact absurd hl hr

/-- Only Fork and Exit, also by a trap, give out and take back pids. -/
theorem sysCall_pids {c : Call} (hf : c ≠ .fork) (he : c ≠ .exit)
    (h : σ.sysCall p c = some (o, σ')) : σ'.nextPid = σ.nextPid ∧ σ'.live = σ.live := by
  refine (sysCall_touches h).same .pids ?_
  cases c <;> simp [callViews] at hf he ⊢

/-! ## Where a call leaves its process -/

theorem setPcb_uctxt_of_ne {q : Pid} {x : Pcb} (hq : q ≠ p) :
    ((σ.setPcb p x).pcb q).uctxt = (σ.pcb q).uctxt := by
  simp [setPcb, hq]

theorem fillProgram_uctxt {li : Exe} {args : List (List Byte)} {rc : Int} {q : Pid}
    (h : σ.fillProgram li args p = some (rc, σ')) (hq : q ≠ p) :
    (σ'.pcb q).uctxt = (σ.pcb q).uctxt := by
  have htext := readSegment_touches σ li.tVaddr li.textSize li.text
  unfold fillProgram at h
  dsimp only at h
  generalize σ.readSegment li.tVaddr li.textSize li.text = text at h htext
  split at h
  · obtain ⟨-, rfl⟩ := Prod.mk.inj (Option.some.inj h)
    exact htext.same .users (by simp) q
  · have hdata := htext.trans
      (readSegment_touches text.2 li.idVaddr li.dataSize li.data)
    generalize text.2.readSegment li.idVaddr li.dataSize li.data = data at h hdata
    split at h
    · obtain ⟨-, rfl⟩ := Prod.mk.inj (Option.some.inj h)
      exact hdata.same .users (by simp) q
    · obtain ⟨τ, hτ, h⟩ := Option.bind_eq_some_iff.1 h
      obtain ⟨τ', hτ', h⟩ := Option.map_eq_some_iff.1 h
      obtain ⟨-, rfl⟩ := Prod.mk.inj h
      have hfill := ((hdata.seq (protect_touches data.2 li p)).seq
        (copyOut_touches hτ)).same .users (by simp) q
      calc (τ'.pcb q).uctxt = ((τ.setPc p li.entry).pcb q).uctxt :=
            (buildArgs_touches hτ').same .users (by simp) q
        _ = (τ.pcb q).uctxt := setPcb_uctxt_of_ne hq
        _ = (σ.pcb q).uctxt := hfill

theorem loadProgram_uctxt {file : Option Exe} {args : Option (List (List Byte))} {rc : Int}
    {q : Pid} (h : σ.loadProgram file args p = some (rc, σ')) (hq : q ≠ p) :
    (σ'.pcb q).uctxt = (σ.pcb q).uctxt := by
  unfold loadProgram at h
  split at h
  · obtain ⟨-, rfl⟩ := Prod.mk.inj (Option.some.inj h)
    rfl
  split at h
  · obtain ⟨-, rfl⟩ := Prod.mk.inj (Option.some.inj h)
    rfl
  obtain ⟨args, -, h⟩ := Option.bind_eq_some_iff.1 h
  split at h
  · obtain ⟨-, rfl⟩ := Prod.mk.inj (Option.some.inj h)
    rfl
  have hbuf : (((σ.setSp p (argTable args)).malloc.2).pcb q).uctxt = (σ.pcb q).uctxt :=
    setPcb_uctxt_of_ne hq
  dsimp only at h
  split at h
  · obtain ⟨⟨ok, τ⟩, hτ, h⟩ := Option.bind_eq_some_iff.1 h
    have hmap := (mapProgram_touches hτ).same .users (by simp) q
    split at h
    · exact (fillProgram_uctxt h hq).trans (hmap.trans hbuf)
    · obtain ⟨-, rfl⟩ := Prod.mk.inj (Option.some.inj h)
      exact hmap.trans hbuf
  · obtain ⟨-, rfl⟩ := Prod.mk.inj (Option.some.inj h)
    exact hbuf

/-- Exec leaves the user contexts of the other processes alone. -/
theorem sysExec_uctxt {q : Pid} (h : σ.sysExec p = some (o, σ')) (hq : q ≠ p) :
    (σ'.pcb q).uctxt = (σ.pcb q).uctxt := by
  unfold sysExec at h
  dsimp only at h
  split at h
  · obtain ⟨-, rfl⟩ := Prod.mk.inj (Option.some.inj h)
    rfl
  obtain ⟨⟨rc, τ⟩, hτ, h⟩ := Option.map_eq_some_iff.1 h
  have hload := loadProgram_uctxt hτ hq
  split at h
  · obtain ⟨-, rfl⟩ := Prod.mk.inj h
    exact hload
  · obtain ⟨-, rfl⟩ := Prod.mk.inj h
    exact hload

theorem sysTtyWrite_suspends (h : σ.sysTtyWrite p = some (o, σ')) :
    Suspends (fun k => ∃ t r, k = .ttyBusy t r ∨ k = .ttySent t r) σ σ' := by
  unfold sysTtyWrite at h
  dsimp only at h
  split at h
  · exact .ret (.refl [] _) (by simp) h
  split at h
  · exact .ret (.refl [] _) (by simp) h
  split at h
  · exact .ret (.refl [] _) (by simp) h
  split at h
  · exact .ret (.refl [] _) (by simp) h
  · exact ttyWriteLoop_suspends h

theorem sysPipeRead_suspends (h : σ.sysPipeRead p = some (o, σ')) :
    Suspends (fun k => ∃ a i b n, 0 ≤ n ∧ σ.pipes.find? (fun x => x.pipeid = i) = some a ∧
      k = .pipeRead a i b n false) σ σ' := by
  unfold sysPipeRead at h
  dsimp only at h
  split at h
  · exact .ret (.refl [] _) (by simp) h
  split at h
  · exact .ret (.refl [] _) (by simp) h
  split at h
  · exact .ret (.refl [] _) (by simp) h
  rename_i hlen
  split at h
  · exact .ret (.refl [] _) (by simp) h
  · rename_i a ha
    exact (pipeReadLoop_suspends h).mono fun k hk => ⟨a, _, _, _, not_lt.1 hlen, ha, hk⟩

theorem sysPipeReadResume_suspends {a : ℕ} {pipeId : Int} {buf : Word} {len : Int}
    {exist : Bool} (h : σ.sysPipeReadResume p a pipeId buf len exist = some (o, σ')) :
    Suspends (fun k => ∃ e, k = .pipeRead a pipeId buf len e) σ σ' := by
  unfold sysPipeReadResume at h
  dsimp only at h
  split at h
  · exact (pipeReadLoop_suspends h).mono fun k hk => ⟨_, hk⟩
  · exact .ret (.refl [] _) (by simp) h

theorem sysAcquireResume_suspends {via : Option Int} {a : ℕ} {lockId : Int} {exist : Bool}
    (h : σ.sysAcquireResume p via a lockId exist = some (o, σ')) :
    Suspends (fun k => ∃ e, k = .acquire via a lockId e) σ σ' := by
  unfold sysAcquireResume at h
  dsimp only at h
  split at h
  · exact (acquireLoop_suspends h).mono fun k hk => ⟨_, hk⟩
  · exact .ret (.refl [] _) (by simp) h

/-- The places where a kernel call can leave its process. -/
def callPlaces (σ : Kernel) : Call → KernelContext → Prop
  | .wait => fun k => ∃ s i, k = .wait s i
  | .delay => fun k => k = .delay
  | .ttyRead => fun k => ∃ t, k = .ttyRead t
  | .ttyWrite => fun k => ∃ t r, k = .ttyBusy t r ∨ k = .ttySent t r
  | .pipeRead => fun k => ∃ a i b n, 0 ≤ n ∧
      σ.pipes.find? (fun x => x.pipeid = i) = some a ∧ k = .pipeRead a i b n false
  | .lockAcquire => fun k => ∃ a x, σ.locks.find? (fun l => l.lockid = x) = some a ∧
      k = .acquire none a x false
  | .cvarWait => fun k => (∃ a c x, k = .cvarWait a c x) ∨ ∃ v a x,
      σ.locks.find? (fun l => l.lockid = x) = some a ∧ k = .acquire v a x false
  | .custom2 => fun k => k = .semWait
  | _ => fun _ => False

/-- Exec writes the user context of its own process. -/
theorem sysExec_suspends (hp : σ.activeProc = some p) (h : σ.sysExec p = some (o, σ')) :
    Suspends K σ σ' := by
  have htouch := sysExec_touches h
  obtain ⟨hactive, hctx⟩ := htouch.same .contexts (by simp)
  refine ⟨fun q => .inl (hctx q), .inl hactive, fun q => ?_⟩
  by_cases hq : q = p
  · exact .inr (.inl (hq ▸ hp))
  · exact .inl (sysExec_uctxt h hq)

theorem sysCall_suspends {c : Call} (hp : σ.activeProc = some p)
    (h : σ.sysCall p c = some (o, σ')) : Suspends (σ.callPlaces c) σ σ' := by
  have htouch := sysCall_touches h
  cases c with
  | exec => exact sysExec_suspends hp h
  | fork => exact sysFork_suspends h
  | exit => exact sysExit_suspends h
  | wait => exact sysWait_suspends h
  | delay => exact sysDelay_suspends h
  | ttyRead => exact sysTtyRead_suspends h
  | ttyWrite => exact sysTtyWrite_suspends h
  | pipeRead => exact sysPipeRead_suspends h
  | lockAcquire =>
      refine (sysAcquire_suspends (show σ.sysAcquire p none 0 = _ from h)).mono ?_
      exact fun k ⟨a, x, ha, hk⟩ => ⟨a, x, ha, hk⟩
  | cvarWait => exact sysCvarWait_suspends h
  | custom2 => exact sysCustom2_suspends h
  | _ => exact .of_touches htouch (by simp [callViews])

/-- The places where a call can leave its process again after a switch. -/
def resumePlaces (σ : Kernel) : KernelContext → KernelContext → Prop
  | .ttyBusy _ _ | .ttySent _ _ => fun k => ∃ t r, k = .ttyBusy t r ∨ k = .ttySent t r
  | .pipeRead a i b n _ => fun k => ∃ e, k = .pipeRead a i b n e
  | .acquire v a x _ => fun k => ∃ e, k = .acquire v a x e
  | .cvarWait _ c _ => fun k => ∃ a x, σ.locks.find? (fun l => l.lockid = x) = some a ∧
      k = .acquire (some c) a x false
  | _ => fun _ => False

theorem resumeCall_suspends {k : KernelContext} (h : σ.resumeCall p k = some (o, σ')) :
    Suspends (σ.resumePlaces k) σ σ' := by
  have htouch := resumeCall_touches h
  cases k with
  | ttyBusy t r => exact ttyWriteLoop_suspends h
  | ttySent t r => exact ttyWriteLoop_suspends h
  | pipeRead a i b n e => exact sysPipeReadResume_suspends h
  | acquire v a x e => exact sysAcquireResume_suspends h
  | cvarWait a c x => exact sysCvarWaitResume_suspends h
  | _ => exact .of_touches htouch (by simp [resumeViews])

theorem trapClockHdl_suspends (h : σ.trapClockHdl = some σ') :
    Suspends (· = .preempted) σ σ' := by
  obtain ⟨⟨s, τ⟩, hs, rfl⟩ := Option.map_eq_some_iff.1 h
  have hτ := Suspends.after (updateSleepList_touches σ) (by simp) (doScheduler_suspends hs)
  cases s with
  | switched => exact hτ
  | returned => exact hτ.seq ((returnUser_touches τ).mono (List.nil_subset _))

/-- The places where a step can leave the active process. -/
def stepPlaces (σ : Kernel) (l : Label) (k : KernelContext) : Prop :=
  (∃ c, l.call = some c ∧ σ.callPlaces c k) ∨ (l.vector = some 1 ∧ k = .preempted) ∨
    l.event = .resume ∧ ∃ p, σ.activeProc = some p ∧ σ.resumePlaces (σ.pcb p).kctxt k

theorem step_suspends (h : Steps σ l σ') : Suspends (σ.stepPlaces l) σ σ' := by
  -- the contexts are not touched before a call and after it
  have behind : ∀ {K : KernelContext → Prop} {u : UserContext} {τ : Kernel},
      Suspends K ((σ.begin l).enter u) τ → Suspends K σ τ :=
    fun hs => .behind (enter_touches σ l _) (by simp) (fun _ hq => hq) hs
  cases h with
  | @store a b τ hl hu h =>
      exact .of_touches ((begin_touches σ l).seq (copyOut_touches h)) (by simp)
  | @call u p c o τ hl hu hv hp hc h =>
      refine (behind ((sysCall_suspends (by exact hp) h).mono fun k hk => .inl ⟨c, ?_, hk⟩)).seq
        (finish_touches o τ)
      simp [Label.call, hl, hv, hc]
  | @clock u τ hl hu hv h =>
      refine behind ((trapClockHdl_suspends h).mono fun k hk => .inr (.inl ⟨?_, hk⟩))
      simp [Label.vector, hl, hv]
  | @abort u p o τ hl hu hv hp h =>
      exact (behind ((sysExit_suspends h).mono fun _ hk => hk.elim)).seq (finish_touches o τ)
  | @grow u p τ hl hu hv hp hfit h =>
      exact .of_touches ((enter_touches σ l u).seq ((growUserStack_touches h).seq
        (returnUser_touches τ))) (by simp)
  | @receive u τ hl hu hv h =>
      exact behind (.of_touches
        ((trapTtyReceiveHdl_touches h).trans ((returnUser_touches τ).mono (List.nil_subset _)))
        (by simp))
  | @transmit u τ hl hu hv h =>
      exact behind (.of_touches
        ((trapTtyTransmitHdl_touches h).trans ((returnUser_touches τ).mono (List.nil_subset _)))
        (by simp))
  | @disk u hl hu hv =>
      exact .of_touches ((enter_touches σ l u).trans
        ((returnUser_touches ((σ.begin l).enter u)).mono (List.nil_subset _))) (by simp)
  | @resume p o τ hl hu hp h =>
      have hs := (resumeCall_suspends h).mono (L := σ.stepPlaces l)
        fun k hk => .inr (.inr ⟨hl, p, hp, hk⟩)
      exact (Suspends.behind (restore_touches σ l p) (by simp) (fun _ hq => hq) hs).seq
        (finish_touches o τ)

end Kernel

end Yalnix
