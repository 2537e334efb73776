import Yalnix.Footprint.Park
import Yalnix.Placement.Invariant

/-!
# A process that sleeps stays where it is

`Stacked` is the invariant that a process that has run has a kernel stack, so no
context switch makes it one again. A process that does not run then continues
where it was switched out, whatever the others do.
-/

namespace Yalnix

open Transition

namespace Kernel

variable {σ σ' : Kernel} {p q : Pid} {o : Outcome} {l : Label}

/-! ## Kernel stacks stay -/

theorem setMap_stack (σ : Kernel) (r : Bool × Mem × PageTable) {x : Space}
    (hx : x.kStackPt = (σ.space p).kStackPt) (q : Pid) :
    (σ.setMap p r x).stack q = σ.stack q := by
  by_cases hq : q = p
  · subst hq
    simp [stack, setMap, hx]
  · simp [stack, setMap, hq]

theorem sysBrk_stack (h : σ.sysBrk p = some (o, σ')) (q : Pid) : σ'.stack q = σ.stack q := by
  obtain ⟨r, -, h⟩ := Option.map_eq_some_iff.1 h
  split at h
  · obtain ⟨-, rfl⟩ := Prod.mk.inj h
    exact setMap_stack _ _ (by rfl) q
  · obtain ⟨-, rfl⟩ := Prod.mk.inj h
    exact setMap_stack _ _ (by rfl) q

theorem mapProgram_stack {li : Exe} {n : ℕ} {ok : Bool}
    (h : σ.mapProgram li n p = some (ok, σ')) (q : Pid) : σ'.stack q = σ.stack q := by
  have hmap : ∀ {b : Bool} {r : Bool × Mem × PageTable} {x : Space},
      x.kStackPt = (σ.space p).kStackPt → some (b, σ.setMap p r x) = some (ok, σ') →
        σ'.stack q = σ.stack q := by
    intro b r x hx he
    obtain ⟨-, rfl⟩ := Prod.mk.inj (Option.some.inj he)
    exact setMap_stack _ _ hx q
  obtain ⟨text, -, h⟩ := Option.bind_eq_some_iff.1 h
  split at h
  · exact hmap rfl h
  · obtain ⟨data, -, h⟩ := Option.bind_eq_some_iff.1 h
    split at h
    · exact hmap rfl h
    · obtain ⟨stack, -, h⟩ := Option.bind_eq_some_iff.1 h
      split at h
      · exact hmap (by rfl) h
      · exact hmap (by rfl) h

theorem protect_stack (σ : Kernel) (li : Exe) (p q : Pid) :
    (σ.protect li p).stack q = σ.stack q := by
  by_cases hq : q = p
  · subst hq
    simp [stack, protect, setSpace]
  · simp [stack, protect, setSpace, hq]

theorem fillProgram_stack {li : Exe} {args : List (List Byte)} {rc : Int}
    (h : σ.fillProgram li args p = some (rc, σ')) (hq : σ.stack q ≠ 0) : σ'.stack q ≠ 0 := by
  have hread : ∀ {τ : Kernel} (a : Word) (size : ℕ) (bs : List Byte), τ.stack q ≠ 0 →
      (τ.readSegment a size bs).2.stack q ≠ 0 :=
    fun a size bs h => (readSegment_touches _ a size bs).stack_ne_zero (by simp) h
  unfold fillProgram at h
  dsimp only at h
  split at h
  · obtain ⟨-, rfl⟩ := Prod.mk.inj (Option.some.inj h)
    exact hread _ _ _ hq
  split at h
  · obtain ⟨-, rfl⟩ := Prod.mk.inj (Option.some.inj h)
    exact hread _ _ _ (hread _ _ _ hq)
  obtain ⟨τ, hτ, h⟩ := Option.bind_eq_some_iff.1 h
  obtain ⟨τ', hτ', h⟩ := Option.map_eq_some_iff.1 h
  obtain ⟨-, rfl⟩ := Prod.mk.inj h
  refine (((copyOut_touches hτ).seq (setPc_touches τ p li.entry)).seq
    (buildArgs_touches hτ')).stack_ne_zero (by simp) ?_
  rw [protect_stack]
  exact hread _ _ _ (hread _ _ _ hq)

theorem loadProgram_stack {file : Option Exe} {args : Option (List (List Byte))} {rc : Int}
    (h : σ.loadProgram file args p = some (rc, σ')) (hq : σ.stack q ≠ 0) : σ'.stack q ≠ 0 := by
  unfold loadProgram at h
  split at h
  · obtain ⟨-, rfl⟩ := Prod.mk.inj (Option.some.inj h)
    exact hq
  split at h
  · obtain ⟨-, rfl⟩ := Prod.mk.inj (Option.some.inj h)
    exact hq
  obtain ⟨args, -, h⟩ := Option.bind_eq_some_iff.1 h
  split at h
  · obtain ⟨-, rfl⟩ := Prod.mk.inj (Option.some.inj h)
    exact hq
  have hbuf := ((setSp_touches σ p (argTable args)).seq (malloc_touches _)).stack_ne_zero
    (by simp) hq
  dsimp only at h
  split at h
  · obtain ⟨⟨ok, τ⟩, hmap, h⟩ := Option.bind_eq_some_iff.1 h
    have hτ : τ.stack q ≠ 0 := by
      rw [mapProgram_stack hmap]
      exact hbuf
    split at h
    · exact fillProgram_stack h hτ
    · obtain ⟨-, rfl⟩ := Prod.mk.inj (Option.some.inj h)
      exact hτ
  · obtain ⟨-, rfl⟩ := Prod.mk.inj (Option.some.inj h)
    exact hbuf

theorem sysExec_stack (h : σ.sysExec p = some (o, σ')) (hq : σ.stack q ≠ 0) :
    σ'.stack q ≠ 0 := by
  unfold sysExec at h
  dsimp only at h
  split at h
  · obtain ⟨-, rfl⟩ := Prod.mk.inj (Option.some.inj h)
    exact hq
  obtain ⟨⟨rc, τ⟩, hτ, h⟩ := Option.map_eq_some_iff.1 h
  have hload := loadProgram_stack hτ hq
  split at h
  · obtain ⟨-, rfl⟩ := Prod.mk.inj h
    exact hload
  · obtain ⟨-, rfl⟩ := Prod.mk.inj h
    exact hload

theorem sysFork_stack (h : σ.sysFork p = some (o, σ')) (hne : q ≠ σ.nextPid)
    (hq : σ.stack q ≠ 0) : σ'.stack q ≠ 0 := by
  unfold sysFork at h
  dsimp only at h
  split at h
  swap
  · obtain ⟨-, rfl⟩ := Prod.mk.inj (Option.some.inj h)
    exact hq
  split at h
  · exact absurd h (by simp)
  have hchild : ((σ.malloc.2.createChild p σ.malloc.1).malloc.2).stack q ≠ 0 := by
    simpa [stack, malloc, createChild, hne] using hq
  split at h
  swap
  · obtain ⟨-, rfl⟩ := Prod.mk.inj (Option.some.inj h)
    exact hchild
  obtain ⟨τ, hτ, h⟩ := Option.map_eq_some_iff.1 h
  have hinit : τ.stack q ≠ 0 := by
    obtain ⟨r, -, rfl⟩ := Option.map_eq_some_iff.1 hτ
    simpa [stack, setPcb, hne] using hchild
  have hcopy : (τ.copySpace p σ.nextPid).2.stack q ≠ 0 := by
    simpa [stack, copySpace, hne] using hinit
  split at h
  · obtain ⟨-, rfl⟩ := Prod.mk.inj h
    exact hcopy
  · obtain ⟨-, rfl⟩ := Prod.mk.inj h
    exact hcopy

theorem sysExit_stack {status : Word} (h : σ.sysExit p status = some (o, σ'))
    (hq : σ.stack q ≠ 0) : σ'.stack q ≠ 0 := by
  unfold sysExit at h
  obtain ⟨family, -, h⟩ := Option.bind_eq_some_iff.1 h
  obtain ⟨⟨rc, τ⟩, hτ, h⟩ := Option.bind_eq_some_iff.1 h
  have htell := ((setFamily_touches σ family).trans (tellParent_touches hτ)).stack_ne_zero
    (by simp) hq
  dsimp only at h
  split at h
  · obtain ⟨-, rfl⟩ := Prod.mk.inj (Option.some.inj h)
    exact htell
  have hwake := (wakeParent_touches (τ.freeSpace p) (τ.family p).ppid).stack_ne_zero (q := q)
    (by simp) (by rwa [freeSpace_stack])
  have hblock := block_touches (v := [.queues, .contexts, .users]) (by simp)
    (fun _ _ _ _ h => .ret (.refl _ _) h) h
  exact hblock.stack_ne_zero (by simp) hwake

theorem growUserStack_stack (h : σ.growUserStack p = some σ') (q : Pid) :
    σ'.stack q = σ.stack q := by
  obtain ⟨r, -, rfl⟩ := Option.map_eq_some_iff.1 h
  by_cases hq : q = p
  · subst hq
    simp [stack]
  · simp [stack, hq]

/-- No step takes away the kernel stack of a process that has been created. -/
theorem step_stack (h : Steps σ l σ') (hne : q ≠ σ.nextPid) (hq : σ.stack q ≠ 0) :
    σ'.stack q ≠ 0 := by
  have hfinish : ∀ {o : Outcome} {τ : Kernel}, τ.stack q ≠ 0 → (finish (o, τ)).stack q ≠ 0 :=
    fun h => (finish_touches _ _).stack_ne_zero (by simp) h
  have hkeep : ∀ {vs : List View} {u : UserContext} {τ : Kernel}, View.frames ∉ vs →
      Touches vs ((σ.begin l).enter u) τ → τ.stack q ≠ 0 :=
    fun hvs ht => ht.stack_ne_zero hvs hq
  cases h with
  | store hl hu h => exact (copyOut_touches h).stack_ne_zero (by simp) hq
  | @call u p c o τ hl hu hv hp hc h =>
      apply hfinish
      cases c with
      | brk =>
          rw [sysBrk_stack h]
          exact hq
      | exec => exact sysExec_stack h hq
      | fork => exact sysFork_stack h hne hq
      | exit => exact sysExit_stack h hq
      | _ => exact hkeep (by simp [callViews]) (sysCall_touches h)
  | clock hl hu hv h => exact hkeep (by simp) (trapClockHdl_touches h)
  | abort hl hu hv hp h => exact hfinish (sysExit_stack h hq)
  | @grow u p τ hl hu hv hp hfit h =>
      change τ.stack q ≠ 0
      rw [growUserStack_stack h]
      exact hq
  | @receive u τ hl hu hv h =>
      exact hkeep (τ := τ) (by simp) (trapTtyReceiveHdl_touches h)
  | @transmit u τ hl hu hv h =>
      exact hkeep (τ := τ) (by simp) (trapTtyTransmitHdl_touches h)
  | disk => exact hq
  | @resume p o τ hl hu hp h =>
      apply hfinish
      have hviews : View.frames ∉ resumeViews (σ.pcb p).kctxt := by
        cases (σ.pcb p).kctxt <;> simp [resumeViews]
      exact (resumeCall_touches h).stack_ne_zero hviews hq

/-! ## The invariant -/

/-- A process that has run has been created and has a kernel stack. -/
structure Stacked (σ : Kernel) : Prop where
  unborn : ∀ q, σ.nextPid ≤ q → (σ.pcb q).kctxt = .kernelStart
  stack : ∀ q, (σ.pcb q).kctxt ≠ .kernelStart ∨ σ.activeProc = some q → σ.stack q ≠ 0

/-- A process that does not run and has run before is left where it is. -/
theorem Stacked.kctxt (h : σ.Stacked) (hs : Steps σ l σ') (hq : σ.activeProc ≠ some q)
    (hk : (σ.pcb q).kctxt ≠ .kernelStart) : (σ'.pcb q).kctxt = (σ.pcb q).kctxt := by
  rcases (step_suspends hs).kctxt q with he | ⟨ha, -⟩ | ⟨-, hs | rfl⟩
  · exact he
  · exact absurd ha hq
  · exact absurd hs (h.stack q (.inl hk))
  · exact absurd (h.unborn _ le_rfl) hk

theorem Settles.nextPid_le {lossy : Prop} (h : Settles lossy σ σ') : σ.nextPid ≤ σ'.nextPid := by
  cases h.pids with
  | same hn => exact hn.ge
  | fork hn => omega
  | exit p hn => exact hn.ge

theorem Stacked.step (h : σ.Stacked) (hinv : σ.Placed) (hs : Steps σ l σ')
    (ha : σ.Allocates l σ') (hi : σ.IdlePauses l) : σ'.Stacked := by
  have hsusp := step_suspends hs
  have hle := (step_settles hinv hs ha hi).nextPid_le
  have hborn : ∀ {r}, σ.activeProc = some r → r < σ.nextPid :=
    fun hr => (hinv.bound _ (hinv.live_of_active hr)).2
  have hold : ∀ r, (σ.pcb r).kctxt ≠ .kernelStart ∨ σ.activeProc = some r → σ'.stack r ≠ 0 := by
    intro r hr
    refine step_stack hs ?_ (h.stack r hr)
    rintro rfl
    rcases hr with hk | hact
    · exact hk (h.unborn _ le_rfl)
    · exact lt_irrefl _ (hborn hact)
  constructor
  · intro q hq
    have hq' : σ.nextPid ≤ q := le_trans hle hq
    rcases hsusp.kctxt q with hk | ⟨hact, -⟩ | ⟨hk, -⟩
    · rw [hk]
      exact h.unborn q hq'
    · exact absurd (hborn hact) (not_lt.2 hq')
    · exact hk
  · intro q hq
    rcases hq with hk | hact
    · rcases hsusp.kctxt q with he | ⟨hact, -⟩ | ⟨he, -⟩
      · exact hold q (.inl (he ▸ hk))
      · exact hold q (.inr hact)
      · exact absurd he hk
    · rcases hsusp.active with he | he
      · exact hold q (.inr (he ▸ hact))
      · exact he q hact

/-! ## The process that has run -/

/-- The process that exits is not live afterwards. -/
theorem not_live_exit {σ₁ τ : Kernel} {status : Word} (hinv : σ.Placed)
    (hb : Touches [.frames, .registers] σ σ₁) (hok : σ₁.mem.AllOk)
    (h : σ₁.sysExit p status = some (o, τ)) : p ∉ (finish (o, τ)).live := by
  obtain ⟨τ', he, hblock⟩ := sysExit_ok hok h
  have ht := (block_touches (v := [.queues, .contexts, .users]) (by simp)
    (fun _ _ _ _ h => .ret (.refl _ _) h) hblock).seq (finish_touches o τ)
  rw [(ht.same .pids (by simp)).2, he.live, (hb.same .pids (by simp)).2]
  exact hinv.nodup.not_mem_erase

/-- The places where step `l` can leave the process `p` that has run. -/
def leftAt (σ : Kernel) (l : Label) (p : Pid) (k : KernelContext) : Prop :=
  (∃ c, l.call = some c ∧ blockPlaces (σ.callState l).uContext c k) ∨
    (l.vector = some 1 ∧ k = .preempted) ∨
      (l.event = .resume ∧ blocksAgain (σ.pcb p).kctxt k)

/-- The process that has run is in user code, or it is at a place in the kernel and its
registers have been saved, or it has exited. -/
theorem step_leaves (hinv : σ.Placed) (h : Steps σ l σ') (ha : σ.Allocates l σ')
    (hp : σ.activeProc = some p) : σ'.inUser p ∨
      (σ.leftAt l p (σ'.pcb p).kctxt ∧ (σ'.pcb p).uctxt = (σ.callState l).uContext ∧
        σ'.userMode = false) ∨ p ∉ σ'.live := by
  have hsame : ∀ {r}, σ.activeProc = some r → r = p := fun hr =>
    Option.some.inj (hr.symm.trans hp)
  cases h with
  | @store a b τ hl hu h =>
      obtain ⟨phys, -, rfl⟩ := Option.map_eq_some_iff.1 h
      exact .inl ⟨hp, hu⟩
  | @call u r c o τ hl hu hv hr hc h =>
      obtain rfl := hsame hr
      by_cases he : c = .exit
      · subst he
        exact .inr (.inr (not_live_exit hinv (enter_touches σ l u) ha.begin h))
      have hpark := sysCall_parks (σ := (σ.begin l).enter u) hp he h
      cases o with
      | ret v => exact .inl ⟨hpark.stays (by simp), rfl⟩
      | restarted => exact .inl ⟨hpark.stays (by simp), hpark.user rfl⟩
      | switched =>
          have hcall : l.call = some c := by simp [Label.call, hl, hv, hc]
          have hstart : σ.callState l = (σ.begin l).enter u := by simp [callState, hl]
          have hregs : View.registers ∉ callViews c := by
            rintro hm
            cases c <;> simp [callViews] at hm
            obtain ⟨v, hv⟩ | ho := sysExec_ends h
            · simp at hv
            · simp at ho
          refine .inr (.inl ⟨.inl ⟨c, hcall, ?_⟩, ?_, hpark.kernel rfl⟩)
          · rw [hstart]
            exact hpark.parked rfl
          · rw [hstart]
            exact (hpark.saved rfl).trans ((sysCall_touches h).same .registers hregs).1
  | @clock u τ hl hu hv h =>
      rcases trapClockHdl_parks (σ := (σ.begin l).enter u) hp h with ⟨hin, -⟩ | ⟨hk, hsaved, hm⟩
      · exact .inl hin
      · refine .inr (.inl ⟨.inr (.inl ⟨by simp [Label.vector, hl, hv], hk⟩), ?_, hm⟩)
        rw [hsaved]
        simp [callState, hl]
  | @abort u r o τ hl hu hv hr h =>
      obtain rfl := hsame hr
      exact .inr (.inr (not_live_exit hinv (enter_touches σ l u) ha.begin h))
  | @grow u r τ hl hu hv hr hfit h =>
      exact .inl ⟨(growUserStack_touches h).activeProc (by simp) hp, rfl⟩
  | @receive u τ hl hu hv h =>
      exact .inl ⟨(trapTtyReceiveHdl_touches h).activeProc (by simp) hp, rfl⟩
  | @transmit u τ hl hu hv h =>
      exact .inl ⟨(trapTtyTransmitHdl_touches h).activeProc (by simp) hp, rfl⟩
  | disk hl hu hv => exact .inl ⟨hp, rfl⟩
  | @resume r o τ hl hu hr h =>
      obtain rfl := hsame hr
      have hpark := resumeCall_parks (σ := (σ.begin l).restore r) hp h
      cases o with
      | ret v => exact .inl ⟨hpark.stays (by simp), rfl⟩
      | restarted => exact .inl ⟨hpark.stays (by simp), hpark.user rfl⟩
      | switched =>
          have hregs : View.registers ∉ resumeViews (σ.pcb r).kctxt := by
            cases hk : (σ.pcb r).kctxt with
            | kernelStart =>
                rw [hk] at h
                simp [resumeCall] at h
            | _ => simp [resumeViews]
          refine .inr (.inl ⟨.inr (.inr ⟨hl, hpark.parked rfl⟩), ?_, hpark.kernel rfl⟩)
          rw [show σ.callState l = (σ.begin l).restore r by simp [callState, hl, hp]]
          exact (hpark.saved rfl).trans ((resumeCall_touches h).same .registers hregs).1

/-- A call from which its process does not come back to user code has switched. -/
theorem Steps.blocked_call {c : Call} (h : Steps σ l σ') (hc : l.call = some c)
    (hne : c ≠ .exit) (hp : σ.activeProc = some p) (hu : ¬σ'.inUser p) : ∃ u,
      l.event = .trap u ∧ u.vector = 0 ∧
        ((σ.begin l).enter u).sysCall p c = some (.switched, σ') := by
  obtain ⟨u, r, o, τ, hl, hv, hr, hcall, rfl, -⟩ := h.of_call hc
  obtain rfl := Option.some.inj (hp.symm.trans hr)
  have hpark := sysCall_parks (σ := (σ.begin l).enter u) hp hne hcall
  cases o with
  | ret v => exact absurd ⟨hpark.stays (by simp), rfl⟩ hu
  | restarted => exact absurd ⟨hpark.stays (by simp), hpark.user rfl⟩ hu
  | switched => exact ⟨u, hl, hv, hcall⟩

theorem Steps.blocked_resume (h : Steps σ l σ') (hl : l.event = .resume)
    (hp : σ.activeProc = some p) (hu : ¬σ'.inUser p) :
    ((σ.begin l).restore p).resumeCall p (σ.pcb p).kctxt = some (.switched, σ') := by
  obtain ⟨r, o, τ, -, hr, hcall, rfl, -⟩ := h.of_resume hl
  obtain rfl := Option.some.inj (hp.symm.trans hr)
  have hpark := resumeCall_parks (σ := (σ.begin l).restore p) hp hcall
  cases o with
  | ret v => exact absurd ⟨hpark.stays (by simp), rfl⟩ hu
  | restarted => exact absurd ⟨hpark.stays (by simp), hpark.user rfl⟩ hu
  | switched => exact hcall

theorem Settles.live_or {lossy : Prop} (h : Settles lossy σ σ') (hq : q ∈ σ'.live) :
    q ∈ σ.live ∨ q = σ.nextPid := by
  cases h.pids with
  | same _ hl => exact .inl (hl ▸ hq)
  | fork _ hl =>
      rw [hl] at hq
      simpa using hq
  | exit p _ hl =>
      rw [hl] at hq
      exact .inl (List.mem_of_mem_erase hq)

/-- A process that has run and is not in user code is where this step has left it, or it
did not run and is where it was, with the registers that had been saved. -/
theorem Stacked.left (h : σ.Stacked) (hinv : σ.Placed) (hs : Steps σ l σ')
    (ha : σ.Allocates l σ') (hi : σ.IdlePauses l) (hq : q ∈ σ'.live) (hu : ¬σ'.inUser q)
    (hk : (σ'.pcb q).kctxt ≠ .kernelStart) :
    (σ.activeProc = some q ∧ σ.leftAt l q (σ'.pcb q).kctxt ∧
        (σ'.pcb q).uctxt = (σ.callState l).uContext) ∨
      (σ.activeProc ≠ some q ∧ q ∈ σ.live ∧ (σ'.pcb q).kctxt = (σ.pcb q).kctxt ∧
        (σ'.pcb q).uctxt = (σ.pcb q).uctxt) := by
  by_cases hact : σ.activeProc = some q
  · rcases step_leaves hinv hs ha hact with hin | ⟨hleft, husers, -⟩ | hlive
    · exact absurd hin hu
    · exact .inl ⟨hact, hleft, husers⟩
    · exact absurd hq hlive
  · have hsusp := step_suspends hs
    have hkctxt : (σ'.pcb q).kctxt = (σ.pcb q).kctxt := by
      rcases hsusp.kctxt q with he | ⟨he, -⟩ | ⟨he, -⟩
      · exact he
      · exact absurd he hact
      · exact absurd he hk
    have hne : q ≠ σ.nextPid := by
      rintro rfl
      exact hk (hkctxt.trans (h.unborn _ le_rfl))
    refine .inr ⟨hact, ((step_settles hinv hs ha hi).live_or hq).resolve_right hne, hkctxt, ?_⟩
    exact (hsusp.users q).resolve_right (not_or.2 ⟨hact, hne⟩)

/-! ## Processes about to continue -/

/-- Process `q` is ready, or it has just been switched to, and it will continue at `k`. -/
structure Due (σ : Kernel) (q : Pid) (k : KernelContext) : Prop where
  kctxt : (σ.pcb q).kctxt = k
  place : q ∈ σ.readyQueue ∨ σ.activeProc = some q ∧ σ.userMode = false

/-- A process that is due stays due until it has continued. -/
theorem Due.step {k : KernelContext} (h : σ.Due q k) (hinv : σ.Placed) (hst : σ.Stacked)
    (hs : Steps σ l σ') (ha : σ.Allocates l σ') (hi : σ.IdlePauses l)
    (hk : k ≠ .kernelStart ∧ k ≠ .preempted) (hq : σ.activeProc ≠ some q) : σ'.Due q k := by
  have hctx : (σ.pcb q).kctxt ≠ .kernelStart := h.kctxt ▸ hk.1
  have hne : q ≠ idle := by
    rintro rfl
    rcases hinv.idleAt with hat | hat
    · exact hctx hat
    · exact hk.2 (h.kctxt.symm.trans hat)
  refine ⟨(hst.kctxt hs hq hctx).trans h.kctxt, ?_⟩
  have hready : q ∈ σ.readyQueue := h.place.resolve_right fun hr => hq hr.1
  refine ((step_settles hinv hs ha hi).flow.ready hready hne).imp_right fun hact => ⟨hact, ?_⟩
  -- another process had been running
  obtain ⟨p, hp⟩ := Option.ne_none_iff_exists'.1 hinv.active
  rcases step_active hs hp with hsame | hnone | hmode
  · exact absurd (hp.trans (hsame.symm.trans hact)) hq
  · rw [hnone] at hact
    exact absurd hact (by simp)
  · exact hmode

/-- A process that is due and runs does nothing but continue. -/
theorem Due.resume {k : KernelContext} (h : σ.Due q k) (hinv : σ.Placed) (hs : Steps σ l σ')
    (hq : σ.activeProc = some q) : l.event = .resume ∧ ∃ o τ,
      ((σ.begin l).restore q).resumeCall q k = some (o, τ) ∧ σ' = finish (o, τ) := by
  have hmode : σ.userMode = false :=
    (h.place.resolve_left (hinv.not_ready hq)).2
  cases hs with
  | @resume p o τ hl hu hp hcall =>
      obtain rfl := Option.some.inj (hp.symm.trans hq)
      rw [h.kctxt] at hcall
      exact ⟨hl, o, τ, hcall, rfl⟩
  | store hl hu => exact absurd (hu.symm.trans hmode) (by simp)
  | call hl hu => exact absurd (hu.symm.trans hmode) (by simp)
  | clock hl hu => exact absurd (hu.symm.trans hmode) (by simp)
  | abort hl hu => exact absurd (hu.symm.trans hmode) (by simp)
  | grow hl hu => exact absurd (hu.symm.trans hmode) (by simp)
  | receive hl hu => exact absurd (hu.symm.trans hmode) (by simp)
  | transmit hl hu => exact absurd (hu.symm.trans hmode) (by simp)
  | disk hl hu => exact absurd (hu.symm.trans hmode) (by simp)

variable {b : Boot} {σ₀ : Kernel}

/-- Init has a kernel stack when it starts to run. -/
theorem kernelStart_stack (h : kernelStart b = some σ₀) : σ₀.stack 0 ≠ 0 := by
  unfold kernelStart at h
  obtain ⟨m, -, h⟩ := Option.bind_eq_some_iff.1 h
  obtain ⟨σ₁, h₁, h⟩ := Option.bind_eq_some_iff.1 h
  obtain ⟨σ₂, h₂, h⟩ := Option.bind_eq_some_iff.1 h
  have hnext := (initInit_booting (.empty m) h₁).nextPid
  have hinit : σ₁.stack 0 ≠ 0 := by
    obtain ⟨τ, hτ, h₁⟩ := Option.bind_eq_some_iff.1 h₁
    obtain ⟨⟨rc, τ'⟩, hload, rfl⟩ := Option.map_eq_some_iff.1 h₁
    refine loadProgram_stack hload ?_
    unfold bootProc at hτ
    dsimp only at hτ
    split at hτ
    · obtain ⟨r, hr, rfl⟩ := Option.map_eq_some_iff.1 hτ
      have hpfn := initKStack_pfn hr
      simpa [stack, malloc, empty] using hpfn
    · exact absurd hτ (by simp)
  have hidle : σ₂.stack 0 ≠ 0 := by
    obtain ⟨τ, hτ, h₂⟩ := Option.bind_eq_some_iff.1 h₂
    obtain ⟨⟨rc, τ'⟩, hload, rfl⟩ := Option.map_eq_some_iff.1 h₂
    refine loadProgram_stack hload ?_
    unfold bootProc at hτ
    dsimp only at hτ
    split at hτ
    · obtain ⟨r, -, rfl⟩ := Option.map_eq_some_iff.1 hτ
      have hne : (0 : Pid) ≠ σ₁.nextPid := by
        rw [hnext]
        decide
      simpa [stack, hne, malloc] using hinit
    · exact absurd hτ (by simp)
  obtain ⟨r, -, rfl⟩ := Option.map_eq_some_iff.1 h
  exact hidle

theorem stacked_boot (h₀ : kernelStart b = some σ₀) : σ₀.Stacked where
  unborn q _ := (kernelStart_booted h₀).kctxt q
  stack q hq := by
    have hb := kernelStart_booted h₀
    rcases hq with hk | ha
    · exact absurd (hb.kctxt q) hk
    · rw [hb.active] at ha
      obtain rfl := Option.some.inj ha
      exact kernelStart_stack h₀

theorem stacked_of_run {tr : List (Move Kernel Label)} (hok : ∀ a ∈ b.procMallocs, a.ok = true)
    (h₀ : kernelStart b = some σ₀)
    (h : Run Kernel.step (fun σ l σ' => σ.Allocates l σ' ∧ σ.IdlePauses l) σ₀ tr σ) :
    σ.Placed ∧ σ.Stacked := by
  refine h.invariant (I := fun σ => σ.Placed ∧ σ.Stacked)
    ⟨placed_boot (kernelStart_booted h₀) (kernelStart_ready hok h₀), stacked_boot h₀⟩ ?_
  rintro σ l σ' ⟨hinv, hst⟩ hs ⟨ha, hi⟩
  exact ⟨hinv.step (step_cases hs) ha hi, hst.step hinv (step_cases hs) ha hi⟩

end Kernel

end Yalnix
