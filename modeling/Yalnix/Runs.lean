import Yalnix.Footprint.Boot

/-!
# Runs of the machine

This module names what results about runs speak of: the conditions that a step
can meet, and what the call that a step makes or continues ends with.
-/

namespace Yalnix

open Transition

/-! ## Conditions on steps -/

/-- The first argument of the call that is made. -/
def Label.pointer (l : Label) : Word :=
  match l.event with
  | .trap u => u.regs 0
  | _ => 0

/-- A PipeInit, LockInit or CvarInit is given a pointer into region 1. The calls do not test it,
and a store into region 0, where the kernel is, has no step. -/
def Label.SparesKernel (l : Label) : Prop :=
  l.call ∈ [some .pipeInit, some .lockInit, some .cvarInit] → vmem1Base ≤ l.pointer

instance (l : Label) : Decidable l.SparesKernel := inferInstanceAs (Decidable (_ → _))

namespace Kernel

/-- Every call of `malloc` in the step yields a block, and every call of
`grab_a_frame` a frame. -/
def Allocates (σ : Kernel) (l : Label) (σ' : Kernel) : Prop :=
  (∀ a ∈ l.mallocs, a.ok = true) ∧ σ'.mem.refused = σ.mem.refused

/-- Idle does nothing but `Pause` (`idle.c`): it is interrupted by the clock and
the devices, and causes no trap itself. -/
def IdlePauses (σ : Kernel) (l : Label) : Prop :=
  σ.activeProc = some idle → l.vector ∈ [none, some 1, some 5, some 6, some 7]

instance (σ σ' : Kernel) (l : Label) : Decidable (σ.Allocates l σ') :=
  inferInstanceAs (Decidable (_ ∧ _))

instance (σ : Kernel) (l : Label) : Decidable (σ.IdlePauses l) :=
  inferInstanceAs (Decidable (_ → _))

theorem Allocates.begin {σ σ' : Kernel} {l : Label} (h : σ.Allocates l σ') :
    (σ.begin l).mem.AllOk := h.1

/-- Idle makes no kernel call and is not aborted. -/
theorem IdlePauses.ne {σ : Kernel} {l : Label} {u : UserContext} {p : Pid}
    (h : σ.IdlePauses l) (hl : l.event = .trap u) (hp : σ.activeProc = some p)
    (hv : u.vector ∉ ([1, 5, 6, 7] : List Int)) : p ≠ idle := by
  rintro rfl
  have hmem := h hp
  simp only [Label.vector, hl, List.mem_cons, Option.some.injEq, reduceCtorEq, false_or] at hmem
  exact hv (by simpa using hmem)

/-! ## What a call ends with -/

/-- The kernel when the call that step `l` makes or continues takes over. -/
def callState (σ : Kernel) (l : Label) : Kernel :=
  match l.event, σ.activeProc with
  | .trap u, _ => (σ.begin l).enter u
  | .resume, some p => (σ.begin l).restore p
  | _, _ => σ.begin l

/-- How the kernel call that step `l` makes or continues ends. -/
def outcome (σ : Kernel) (l : Label) : Option Outcome :=
  σ.activeProc.bind fun p =>
    match l.event with
    | .trap u => l.call.bind fun c => (((σ.begin l).enter u).sysCall p c).map Prod.fst
    | .resume => (((σ.begin l).restore p).resumeCall p (σ.pcb p).kctxt).map Prod.fst
    | .store _ _ => none

variable {σ τ : Kernel} {l : Label} {p : Pid} {o : Outcome}

theorem outcome_call {u : UserContext} {c : Call} (hl : l.event = .trap u)
    (hv : u.vector = 0) (hp : σ.activeProc = some p) (hc : Call.decode u.code = some c)
    (h : ((σ.begin l).enter u).sysCall p c = some (o, τ)) : σ.outcome l = some o := by
  simp [outcome, hp, hl, Label.call, hv, hc, h]

theorem outcome_resume (hl : l.event = .resume) (hp : σ.activeProc = some p)
    (h : ((σ.begin l).restore p).resumeCall p (σ.pcb p).kctxt = some (o, τ)) :
    σ.outcome l = some o := by
  simp [outcome, hp, hl, h]

/-- A step that makes the call `c`. -/
theorem Steps.of_call {σ' : Kernel} {c : Call} (h : Steps σ l σ') (hc : l.call = some c) :
    ∃ u p o τ, l.event = .trap u ∧ u.vector = 0 ∧ σ.activeProc = some p ∧
      ((σ.begin l).enter u).sysCall p c = some (o, τ) ∧ σ' = finish (o, τ) ∧
        σ.outcome l = some o := by
  have hv := Label.vector_of_call hc
  cases h with
  | @call u p c' o τ hl hu hv hp hc' h =>
      obtain rfl : c' = c := by
        simp only [Label.call, hl, if_pos hv, hc'] at hc
        exact Option.some.inj hc
      exact ⟨u, p, o, τ, hl, hv, hp, h, rfl, outcome_call hl hv hp hc' h⟩
  | store hl => simp [Label.vector, hl] at hv
  | clock hl _ hv' => simp [Label.vector, hl, hv'] at hv
  | abort hl _ hv' => simp_all [Label.vector]
  | grow hl _ hv' => simp [Label.vector, hl, hv'] at hv
  | receive hl _ hv' => simp [Label.vector, hl, hv'] at hv
  | transmit hl _ hv' => simp [Label.vector, hl, hv'] at hv
  | disk hl _ hv' => simp [Label.vector, hl, hv'] at hv
  | resume hl => simp [Label.vector, hl] at hv

/-- A step in which a process continues. -/
theorem Steps.of_resume {σ' : Kernel} (h : Steps σ l σ') (hl : l.event = .resume) :
    ∃ p o τ, σ.userMode = false ∧ σ.activeProc = some p ∧
      ((σ.begin l).restore p).resumeCall p (σ.pcb p).kctxt = some (o, τ) ∧
        σ' = finish (o, τ) ∧ σ.outcome l = some o := by
  cases h with
  | @resume p o τ _ hu hp h => exact ⟨p, o, τ, hu, hp, h, rfl, outcome_resume hl hp h⟩
  | store hl' => simp [hl] at hl'
  | call hl' => simp [hl] at hl'
  | clock hl' => simp [hl] at hl'
  | abort hl' => simp [hl] at hl'
  | grow hl' => simp [hl] at hl'
  | receive hl' => simp [hl] at hl'
  | transmit hl' => simp [hl] at hl'
  | disk hl' => simp [hl] at hl'

/-! ## Runs of a small machine -/

section Small

variable {b : Boot} {C : Kernel → Label → Kernel → Prop} [∀ σ l σ', Decidable (C σ l σ')]
  {t : List Label}

/-- The state that the labels `ls` lead to from the boot, if all steps meet `C`. -/
def bootExec (b : Boot) (C : Kernel → Label → Kernel → Prop) [∀ σ l σ', Decidable (C σ l σ')]
    (ls : List Label) : Option Kernel :=
  (kernelStart b).bind fun σ => exec step C σ ls

theorem bootExec_some {σ : Kernel} (h : bootExec b C t = some σ) :
    ∃ σ₀ tr, kernelStart b = some σ₀ ∧ Run step C σ₀ tr σ ∧ tr.length = t.length := by
  obtain ⟨σ₀, h₀, h⟩ := Option.bind_eq_some_iff.1 h
  obtain ⟨tr, hr, hls⟩ := exec_run h
  exact ⟨σ₀, tr, h₀, hr, by rw [← hls, List.length_map]⟩

/-- A run with the labels `t`, whose last state has been found to meet `P`. -/
theorem bootExec_trace {P : Kernel → Prop} [∀ σ, Decidable (P σ)]
    (h : ((bootExec b C t).map fun σ => decide (P σ)) = some true) :
    ∃ σ₀ tr σ, kernelStart b = some σ₀ ∧ Run step C σ₀ tr σ ∧ tr.map Move.label = t ∧ P σ := by
  obtain ⟨σ, hσ, hP⟩ := Option.map_eq_some_iff.1 h
  obtain ⟨σ₀, h₀, hσ⟩ := Option.bind_eq_some_iff.1 hσ
  obtain ⟨tr, hr, hls⟩ := exec_run hσ
  exact ⟨σ₀, tr, σ, h₀, hr, hls, of_decide_eq_true hP⟩

theorem bootExec_run (h : (bootExec b C t).isSome = true) :
    ∃ σ₀ tr σ, kernelStart b = some σ₀ ∧ Run step C σ₀ tr σ ∧ tr.length = t.length := by
  obtain ⟨σ, hσ⟩ := Option.isSome_iff_exists.1 h
  obtain ⟨σ₀, tr, h₀, hr, hlen⟩ := bootExec_some hσ
  exact ⟨σ₀, tr, σ, h₀, hr, hlen⟩

/-- A run whose last state has been found to meet `P`. -/
theorem bootExec_state {P : Kernel → Prop} [∀ σ, Decidable (P σ)]
    (h : ((bootExec b C t).map fun σ => decide (P σ)) = some true) :
    ∃ σ₀ tr σ, kernelStart b = some σ₀ ∧ Run step C σ₀ tr σ ∧ P σ := by
  obtain ⟨σ, hσ, h⟩ := Option.map_eq_some_iff.1 h
  obtain ⟨σ₀, tr, h₀, hr, -⟩ := bootExec_some hσ
  exact ⟨σ₀, tr, σ, h₀, hr, of_decide_eq_true h⟩

/-- A run and its last move, of which `P` has been evaluated. -/
theorem bootExec_move {l : Label} {P : Kernel → Kernel → Prop} [∀ σ σ', Decidable (P σ σ')]
    (h : ((bootExec b C t).bind fun σ => (σ.step l).map fun σ' =>
      decide (C σ l σ' ∧ P σ σ')) = some true) :
    ∃ σ₀ tr σ σ', kernelStart b = some σ₀ ∧ Run step C σ₀ tr σ ∧
      Run step C σ₀ (tr ++ [⟨σ, l, σ'⟩]) σ' ∧ P σ σ' := by
  obtain ⟨σ, hσ, h⟩ := Option.bind_eq_some_iff.1 h
  obtain ⟨σ', hσ', h⟩ := Option.map_eq_some_iff.1 h
  obtain ⟨hC, hP⟩ := of_decide_eq_true h
  obtain ⟨σ₀, tr, h₀, hr, -⟩ := bootExec_some hσ
  exact ⟨σ₀, tr, σ, σ', h₀, hr, hr.snoc hσ' hC, hP⟩

/-- A run whose moves from the `n`-th on have been found to meet `P`. -/
theorem bootMoves {n : ℕ} {P : Move Kernel Label → List (Move Kernel Label) → Prop}
    [∀ m tr, Decidable (P m tr)]
    (h : ((kernelStart b).bind fun σ => (moves step C σ t).map fun tr =>
      (tr.drop n).head?.any fun m => decide (P m (tr.drop n).tail)) = some true) :
    ∃ σ₀ tr₁ m tr₂ σ, kernelStart b = some σ₀ ∧ Run step C σ₀ (tr₁ ++ m :: tr₂) σ ∧ P m tr₂ := by
  obtain ⟨σ₀, h₀, h⟩ := Option.bind_eq_some_iff.1 h
  obtain ⟨tr, htr, hP⟩ := Option.map_eq_some_iff.1 h
  obtain ⟨σ, hr⟩ := moves_run htr
  cases htail : tr.drop n with
  | nil => simp [htail] at hP
  | cons m tr₂ =>
      rw [htail] at hP
      have hsplit : tr = tr.take n ++ m :: tr₂ := by rw [← htail, List.take_append_drop]
      rw [hsplit] at hr
      exact ⟨σ₀, _, m, tr₂, σ, h₀, hr, of_decide_eq_true hP⟩

end Small

end Kernel

/-- A program with one page of zeros at the start of region 1 and no file part. -/
def smallExe : Exe where
  tVaddr := vmem1Base
  tNpg := 0
  idVaddr := vmem1Base
  idNpg := 0
  udNpg := 1
  idEnd := vmem1Base
  udEnd := vmem1Base
  entry := vmem1Base
  text := []
  data := []

/-- A machine without memory above region 0, whose two programs are `smallExe`. -/
def smallBoot : Boot where
  totalFrames := 128
  dataStart := 0x2000
  dataEnd := 0xA0000
  initFile := some smallExe
  idleFile := some smallExe

/-- A step that makes the call `c` with the first three registers given. -/
def smallCall (c : Call) (r₀ r₁ r₂ : Word) : Label where
  event := .trap { code := c.code, regs := fun i =>
    if i = 0 then r₀ else if i = 1 then r₁ else if i = 2 then r₂ else 0 }

/-- A step in which the clock interrupts the process that runs. -/
def clockTick : Label := { event := .trap { vector := 1 } }

/-- A step in which terminal `t` interrupts the process that runs, after a transmission. -/
def transmitDone (t : Word) : Label := { event := .trap { vector := 6, code := t } }

/-- A step in which a line from terminal `t` interrupts the process that runs. -/
def lineArrives (t : Word) (line : List Byte) : Label :=
  { event := .trap { vector := 5, code := t }, world := { line := line } }

/-- A step in which the process that has been switched to continues. -/
def resumption : Label := { event := .resume }

end Yalnix
