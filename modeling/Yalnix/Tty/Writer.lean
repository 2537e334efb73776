import Yalnix.Placement.Context
import Yalnix.Tty.Line

/-!
# Processes that wait for a terminal

A writer sleeps in `io_list` either until its terminal is free or until its own chunk has
been acknowledged, and the interrupt cannot tell one from the other: it looks at the state
and the terminal in the PCB. `TtyStep` has one case for each thing that a step can do to
`io_list`.
-/

namespace Yalnix

open Transition

namespace Kernel

variable {σ σ' : Kernel} {l : Label} {p q : Pid} {o : Outcome} {t : Int}

/-- `trap_tty_transmit_hdl` takes `q` for a process that waits for terminal `t`. -/
def Awaits (σ : Kernel) (t : Int) (q : Pid) : Prop :=
  (σ.pcb q).state = .blockedW ∧ t = (σ.pcb q).ttyId

instance (σ : Kernel) (t : Int) (q : Pid) : Decidable (σ.Awaits t q) :=
  inferInstanceAs (Decidable (_ ∧ _))

/-- A process at `k` is in a TtyWrite to terminal `t` with `r` bytes still to transmit. -/
def Writes (t r : Int) (k : KernelContext) : Prop := k = .ttyBusy t r ∨ k = .ttySent t r

/-! ## The turns of a writer -/

theorem blockWriter_ok {σ : Kernel} (h : σ.mem.AllOk) (p : Pid) :
    (σ.blockWriter p).1 = 0 ∧ (σ.blockWriter p).2.ioList = σ.ioList ++ [p] ∧
      (σ.blockWriter p).2.Awaits (σ.reg 0).toInt p := by
  unfold blockWriter
  rw [ioInsert_ok (by exact h)]
  exact ⟨rfl, rfl, by simp [Awaits, setPcb]⟩

/-- A writer that blocks is switched out. -/
theorem Calling.writer {σ₁ : Kernel} (h : σ.Calling p) (h₁ : Requeues 0 σ σ₁)
    {k : KernelContext} {after : Kernel → Option (Outcome × Kernel)}
    (hs : (if (σ₁.blockWriter p).1 ≠ 0 then some (.ret error, (σ₁.blockWriter p).2)
      else (σ₁.blockWriter p).2.block k after) = some (o, σ')) :
    o = .switched ∧ SameLines σ₁ σ' ∧ σ'.ioList = σ₁.ioList ++ [p] ∧
      σ'.Awaits (σ₁.reg 0).toInt p ∧ (σ'.pcb p).kctxt = k := by
  obtain ⟨hrc, hio, hwaits⟩ := blockWriter_ok h₁.ok p
  rw [if_neg (not_not.2 hrc)] at hs
  have hset : Requeues 0 σ₁ (σ₁.setPcb p { σ₁.pcb p with
      ttyId := (σ₁.reg 0).toInt, state := .blockedW }) :=
    .of_touches (setPcb_touches (by rfl) (by rfl) (by rfl) (by rfl)) (by simp) (by simp) h₁.ok
  obtain ⟨rfl, ht, hk⟩ := (h.requeued ((h₁.trans hset).congr (add_zero 0))).sleeps
    (.ioInsert hset.ok p) hs
  have hterm := ht.same .terminals (by simp)
  have hstate := ht.same .states (by simp) p
  refine ⟨rfl, ⟨hterm.1, hterm.2.1⟩, hterm.2.2.trans hio, ?_, hk⟩
  rw [Awaits, hstate.1, hstate.2]
  exact hwaits

/-- A turn of the loop of `sys_TtyWrite` ends the call, waits for the terminal, or sends
a chunk. -/
theorem ttyWriteLoop_cases {n : ℕ} {r : Int} (hcall : σ.Calling p)
    (h : ttyWriteLoop n σ p t r = some (o, σ')) :
    (r ≤ 0 ∧ o = .ret (σ.reg 2).toInt ∧ σ' = σ) ∨
      (0 < r ∧ isTerminal t = true ∧ o = .switched ∧ σ'.ioList = σ.ioList ++ [p] ∧
        σ'.Awaits (σ.reg 0).toInt p ∧
        ((σ.busyTerminal t = true ∧ SameLines σ σ' ∧ (σ'.pcb p).kctxt = .ttyBusy t r) ∨
          (σ.busyTerminal t = false ∧
            σ'.busyTerminal = Function.update σ.busyTerminal t true ∧
            (∃ bytes, σ.copyIn (σ.reg 1) (min r terminalMaxLine).toNat = some bytes ∧
              σ'.transmitted = σ.transmitted ++ [(t, bytes)]) ∧
            (σ'.pcb p).kctxt = .ttySent t (r - min r terminalMaxLine)))) := by
  cases n with
  | zero => exact absurd h (by simp [ttyWriteLoop])
  | succ n =>
      unfold ttyWriteLoop at h
      dsimp only at h
      split at h
      · obtain ⟨rfl, rfl⟩ := Prod.mk.inj (Option.some.inj h)
        exact .inl ⟨‹_›, rfl, rfl⟩
      rename_i hr
      split at h
      swap
      · exact absurd h (by simp)
      rename_i hterm
      right
      split at h
      · obtain ⟨rfl, hlines, hio, hwaits, hk⟩ := hcall.writer (.refl hcall.ok) h
        exact ⟨not_le.1 hr, hterm, rfl, hio, hwaits, .inl ⟨‹_›, hlines, hk⟩⟩
      · rename_i hidle
        obtain ⟨bytes, hbytes, h⟩ := Option.bind_eq_some_iff.1 h
        have hsend : Requeues 0 σ (σ.ttyTransmit t bytes) :=
          .of_touches (ttyTransmit_touches σ t bytes) (by simp) (by simp) hcall.ok
        obtain ⟨rfl, hlines, hio, hwaits, hk⟩ := hcall.writer hsend h
        exact ⟨not_le.1 hr, hterm, rfl, hio, hwaits,
          .inr ⟨by simpa using hidle, hlines.1, ⟨bytes, hbytes, hlines.2⟩, hk⟩⟩

/-! ## What the handlers read in the PCB of a process that does not run -/

/-- The state and the terminal in the PCB of `q` are as before. -/
def SameState (σ σ' : Kernel) (q : Pid) : Prop :=
  (σ'.pcb q).state = (σ.pcb q).state ∧ (σ'.pcb q).ttyId = (σ.pcb q).ttyId

namespace SameState

theorem of_touches {vs : List View} (h : Touches vs σ σ') (hvs : View.states ∉ vs) (q : Pid) :
    SameState σ σ' q := h.same .states hvs q

theorem trans {τ : Kernel} (h : SameState σ τ q) (h' : SameState τ σ' q) : SameState σ σ' q :=
  ⟨h'.1.trans h.1, h'.2.trans h.2⟩

theorem setPcb {x : Pcb} (hq : q ≠ p) : SameState σ (σ.setPcb p x) q := by
  simp [SameState, Kernel.setPcb, hq]

theorem blockWriter (σ : Kernel) (hq : q ≠ p) : SameState σ (σ.blockWriter p).2 q :=
  (setPcb hq).trans (.of_touches (ioInsert_touches _ p) (by simp) q)

end SameState

theorem ttyWriteLoop_states {n : ℕ} {r : Int} (hq : q ≠ p)
    (h : ttyWriteLoop n σ p t r = some (o, σ')) : SameState σ σ' q := by
  have hret : ∀ {τ : Kernel} {v : Outcome}, SameState σ τ q → some (v, τ) = some (o, σ') →
      SameState σ σ' q := fun hτ he => (Prod.mk.inj (Option.some.inj he)).2 ▸ hτ
  induction n generalizing σ r with
  | zero => exact absurd h (by simp [ttyWriteLoop])
  | succ n ih =>
      have hrest : ∀ {τ : Kernel} {k : KernelContext} {r : Int}, SameState σ τ q →
          τ.block k (fun σ => ttyWriteLoop n σ p t r) = some (o, σ') → SameState σ σ' q := by
        intro τ k r hτ hb
        rcases block_cases hb with ht | ⟨τ', ht, hb⟩
        · exact hτ.trans (.of_touches ht (by simp) q)
        · exact (hτ.trans (.of_touches ht (by simp) q)).trans
            (ih hb fun hτ he => (Prod.mk.inj (Option.some.inj he)).2 ▸ hτ)
      unfold ttyWriteLoop at h
      dsimp only at h
      split at h
      · exact hret ⟨rfl, rfl⟩ h
      split at h
      swap
      · exact absurd h (by simp)
      split at h
      · have hw := SameState.blockWriter σ hq
        split at h
        · exact hret hw h
        · exact hrest hw h
      · obtain ⟨bytes, -, h⟩ := Option.bind_eq_some_iff.1 h
        have hsend := SameState.of_touches (ttyTransmit_touches σ t bytes) (by simp) q
        have hw := hsend.trans (.blockWriter (σ.ttyTransmit t bytes) hq)
        split at h
        · exact hret hw h
        · exact hrest hw h

theorem sysTtyWrite_states (hq : q ≠ p) (h : σ.sysTtyWrite p = some (o, σ')) :
    SameState σ σ' q := by
  have hret : ∀ {v : Outcome}, some (v, σ) = some (o, σ') → SameState σ σ' q :=
    fun he => (Prod.mk.inj (Option.some.inj he)).2 ▸ ⟨rfl, rfl⟩
  unfold sysTtyWrite at h
  dsimp only at h
  split at h
  · exact hret h
  split at h
  · exact hret h
  split at h
  · exact hret h
  split at h
  · exact hret h
  · exact ttyWriteLoop_states hq h

theorem sysTtyRead_states (hq : q ≠ p) (h : σ.sysTtyRead p = some (o, σ')) :
    SameState σ σ' q := by
  have hret : ∀ {τ : Kernel} {v : Outcome}, SameState σ τ q → some (v, τ) = some (o, σ') →
      SameState σ σ' q := fun hτ he => (Prod.mk.inj (Option.some.inj he)).2 ▸ hτ
  unfold sysTtyRead at h
  dsimp only at h
  split at h
  · exact hret ⟨rfl, rfl⟩ h
  split at h
  · exact hret ⟨rfl, rfl⟩ h
  split at h
  · exact hret ⟨rfl, rfl⟩ h
  split at h
  · exact hret ⟨rfl, rfl⟩ h
  have hio := (SameState.setPcb (σ := σ) (x := { σ.pcb p with
    ttyId := (σ.reg 0).toInt, buf := σ.reg 1, len := (σ.reg 2).toInt, state := .blockedR })
    hq).trans (.of_touches (ioInsert_touches _ p) (by simp) q)
  split at h
  · exact hret hio h
  · have ht := block_touches (v := [.queues, .contexts, .users, .buffers, .memory]) (by simp)
      (fun _ _ _ _ h => (sysTtyReadResume_touches h).mono (by simp)) h
    exact hio.trans (.of_touches ht (by simp) q)

theorem sysDelay_states (hq : q ≠ p) (h : σ.sysDelay p = some (o, σ')) :
    SameState σ σ' q := by
  have hret : ∀ {τ : Kernel} {v : Outcome}, SameState σ τ q → some (v, τ) = some (o, σ') →
      SameState σ σ' q := fun hτ he => (Prod.mk.inj (Option.some.inj he)).2 ▸ hτ
  have hsleep : SameState σ (σ.insertSleepList p (σ.reg 0).toInt).2 q := by
    unfold insertSleepList
    dsimp only
    split
    · exact (SameState.setPcb (σ := σ.malloc.2) hq)
    · exact ⟨rfl, rfl⟩
  unfold sysDelay at h
  dsimp only at h
  split at h
  · exact hret ⟨rfl, rfl⟩ h
  split at h
  · exact hret ⟨rfl, rfl⟩ h
  split at h
  · exact hret hsleep h
  · have ht := block_touches (v := [.queues, .contexts, .users]) (by simp)
      (fun _ _ _ _ h => .ret (.refl _ _) h) h
    exact hsleep.trans (.of_touches ht (by simp) q)

theorem sysFork_states (hq : q ≠ σ.nextPid) (h : σ.sysFork p = some (o, σ')) :
    SameState σ σ' q := by
  unfold sysFork at h
  dsimp only at h
  have hchild : SameState σ (σ.malloc.2.createChild p σ.malloc.1).malloc.2 q := by
    simp [SameState, malloc, createChild, hq]
  split at h
  swap
  · obtain ⟨-, rfl⟩ := Prod.mk.inj (Option.some.inj h)
    exact ⟨rfl, rfl⟩
  split at h
  · exact absurd h (by simp)
  split at h
  swap
  · obtain ⟨-, rfl⟩ := Prod.mk.inj (Option.some.inj h)
    exact hchild
  obtain ⟨τ, hτ, h⟩ := Option.map_eq_some_iff.1 h
  have hinit : SameState σ τ q := (hchild.trans (.setPcb hq)).trans
    (.of_touches (initProcKernel_touches_frames hτ) (by simp) q)
  have hcopy := hinit.trans (.of_touches (copySpace_touches τ p σ.nextPid) (by simp) q)
  split at h
  · obtain ⟨-, rfl⟩ := Prod.mk.inj h
    exact hcopy.trans (.of_touches (readyInsert_touches _ _) (by simp) q)
  · obtain ⟨-, rfl⟩ := Prod.mk.inj h
    exact hcopy

theorem tickSleepers_states (ss : List SleepInfo) (σ : Kernel)
    (hq : q ∉ ss.map SleepInfo.pcb) : SameState σ (tickSleepers ss σ).2 q := by
  induction ss generalizing σ with
  | nil => exact ⟨rfl, rfl⟩
  | cons s ss ih =>
      rw [List.map_cons, List.mem_cons, not_or] at hq
      unfold tickSleepers
      dsimp only
      split
      · exact ((SameState.setPcb hq.1).trans
          (.of_touches (readyInsert_touches _ s.pcb) (by simp) q)).trans (ih _ hq.2)
      · exact ih σ hq.2

/-- A step leaves the state and the terminal of a process alone that neither runs nor
sleeps in Delay. -/
theorem step_states (h : Steps σ l σ') (hact : σ.activeProc ≠ some q)
    (hsleep : q ∉ σ.sleepList.map SleepInfo.pcb) (hnew : q ≠ σ.nextPid) : SameState σ σ' q := by
  have hne : ∀ {p}, σ.activeProc = some p → q ≠ p := by
    rintro p hp rfl
    exact hact hp
  have henter : ∀ u, SameState σ ((σ.begin l).enter u) q := fun u =>
    .of_touches (enter_touches σ l u) (by simp) q
  have hfin : ∀ o τ, SameState τ (finish (o, τ)) q := fun o τ =>
    .of_touches (finish_touches o τ) (by simp) q
  cases h with
  | store hl hu h =>
      exact .of_touches ((begin_touches σ l).seq (copyOut_touches h)) (by simp) q
  | @call u p c o τ hl hu hv hp hc h =>
      refine ((henter u).trans ?_).trans (hfin o τ)
      cases c with
      | fork => exact sysFork_states hnew h
      | delay => exact sysDelay_states (hne hp) h
      | ttyRead => exact sysTtyRead_states (hne hp) h
      | ttyWrite => exact sysTtyWrite_states (hne hp) h
      | _ => exact .of_touches (sysCall_touches h) (by simp [callViews]) q
  | @clock u τ hl hu hv h =>
      obtain ⟨⟨s, τ'⟩, hs, rfl⟩ := Option.map_eq_some_iff.1 h
      rw [updateSleepList_eq] at hs
      have hτ := ((henter u).trans (tickSleepers_states _ ((σ.begin l).enter u) hsleep)).trans
        (.of_touches (doScheduler_touches hs) (by simp) q)
      cases s with
      | switched => exact hτ
      | returned => exact hτ
  | @abort u p o τ hl hu hv hp h =>
      exact ((henter u).trans (.of_touches (sysExit_touches h) (by simp) q)).trans (hfin o τ)
  | @grow u p τ hl hu hv hp hfit h =>
      exact (henter u).trans (.of_touches ((growUserStack_touches h).seq
        (returnUser_touches τ)) (by simp) q)
  | @receive u τ hl hu hv h =>
      exact (henter u).trans (.of_touches ((trapTtyReceiveHdl_touches h).seq
        (returnUser_touches τ)) (by simp) q)
  | @transmit u τ hl hu hv h =>
      exact (henter u).trans (.of_touches ((trapTtyTransmitHdl_touches h).seq
        (returnUser_touches τ)) (by simp) q)
  | @disk u hl hu hv => exact henter u
  | @resume p o τ hl hu hp h =>
      refine (SameState.of_touches (restore_touches σ l p) (by simp) q).trans
        (SameState.trans ?_ (hfin o τ))
      cases hk : (σ.pcb p).kctxt with
      | ttyBusy t r =>
          rw [hk] at h
          exact ttyWriteLoop_states (hne hp) h
      | ttySent t r =>
          rw [hk] at h
          exact ttyWriteLoop_states (hne hp) h
      | _ => exact .of_touches (resumeCall_touches h) (by simp [hk, resumeViews]) q

end Kernel

end Yalnix
