import Yalnix.Sync.Pipe

/-!
# Wake-ups of readers

A write and a completed read wake the first process that waits for the pipe. It may ask
for more bytes than there are and queue up again; the wake-up is not passed on to the
next one, which may have asked for fewer. No reader sleeps beside the bytes it asked for
as long as a reader that queues up again leaves another one on its way, or none whose
request could be met.
-/

namespace Yalnix

open Transition

namespace Kernel

variable {σ σ' : Kernel} {l : Label} {p q : Pid} {a : ℕ} {tr : List (Move Kernel Label)}

/-- In this move a PipeRead or PipeWrite takes `q` out of the waiting list of the pipe
at `a`. -/
def WakesReader (a : ℕ) (q : Pid) (m : Move Kernel Label) : Prop :=
  a ∈ m.before.pipes.list ∧ a ∈ m.after.pipes.list ∧
    q ∈ (m.before.pipes.cell a).pipeWaitList ∧ q ∉ (m.after.pipes.cell a).pipeWaitList

/-- Process `q` has been taken out of the waiting list of the pipe at `a`, and since then
it has not run and the pipe has not been reclaimed. -/
def ReaderWoken (a : ℕ) (q : Pid) (tr : List (Move Kernel Label)) : Prop :=
  Since (WakesReader a q) (fun m => m.before.activeProc ≠ some q ∧ a ∈ m.after.pipes.list) tr

/-- How many bytes a process that is in PipeRead asked for. -/
def request (σ : Kernel) (q : Pid) : Option Int :=
  match (σ.pcb q).kctxt with
  | .pipeRead _ _ _ n _ => some n
  | _ => none

/-- Some process that waits for the pipe at `a` asked for no more than it holds. -/
def Starves (σ : Kernel) (a : ℕ) : Prop :=
  ∃ q ∈ (σ.pipes.cell a).pipeWaitList, ∃ n ∈ σ.request q, n ≤ (σ.pipes.cell a).curLen

instance (σ : Kernel) (a : ℕ) : Decidable (σ.Starves a) :=
  inferInstanceAs (Decidable (∃ q ∈ _, _))

/-- A process at `k` continues with the pipe at `a`. -/
def ReadsFrom (σ : Kernel) (a : ℕ) (k : KernelContext) : Prop :=
  ∃ x buf n e, k = .pipeRead a x buf n e ∧ (e = true ∨ x = (σ.pipes.cell a).pipeid)

theorem ReadsFrom.ne {k : KernelContext} (h : σ.ReadsFrom a k) :
    k ≠ .kernelStart ∧ k ≠ .preempted := by
  obtain ⟨x, buf, n, e, rfl, -⟩ := h
  simp

theorem PipeStep.pipeid {calm : Prop} (h : PipeStep calm σ σ' l a) (ha : a ∈ σ.pipes.list) :
    (σ'.pipes.cell a).pipeid = (σ.pipes.cell a).pipeid := by
  cases h with
  | same _ _ _ hcell => rw [hcell]
  | fresh hn => exact absurd ha hn
  | queued _ _ _ _ hcell => rw [hcell]
  | read _ _ _ _ _ _ _ hcell => rw [hcell]
  | write _ _ _ _ _ _ _ hcell => rw [hcell]

theorem ReadsFrom.step {k : KernelContext} (h : σ.ReadsFrom a k) (hs : PipeStep True σ σ' l a)
    (ha : a ∈ σ.pipes.list) : σ'.ReadsFrom a k := by
  obtain ⟨x, buf, n, e, rfl, he⟩ := h
  exact ⟨x, buf, n, e, rfl, by rwa [hs.pipeid ha]⟩

/-- A process that waits for a pipe does not run. -/
theorem Placed.reader (h : σ.Placed) (ha : a ∈ σ.pipes.list)
    (hq : q ∈ (σ.pipes.cell a).pipeWaitList) : σ.activeProc ≠ some q :=
  ((h.asleep (pipe_blocked ha)).2 q hq).1

/-- The processes that wait for a pipe after a step: those that waited before it, or one
that has just queued up, or those behind the first, which has been woken. -/
theorem PipeStep.waiting (h : PipeStep True σ σ' l a) (ha : a ∈ σ.pipes.list) :
    σ'.pipes.cell a = σ.pipes.cell a ∨
      (∃ p, σ.activeProc = some p ∧ σ'.ReadsFrom a (σ'.pcb p).kctxt ∧
        (∃ n ∈ σ'.request p, (σ'.pipes.cell a).curLen < n) ∧
        (σ'.pipes.cell a).curLen = (σ.pipes.cell a).curLen ∧
        (σ'.pipes.cell a).pipeWaitList = (σ.pipes.cell a).pipeWaitList ++ [p]) ∨
      ((∀ q ∈ (σ.pipes.cell a).pipeWaitList.head?, q ∈ σ'.readyQueue) ∧
        (σ'.pipes.cell a).pipeWaitList = (σ.pipes.cell a).pipeWaitList.tail) := by
  have hid := h.pipeid ha
  cases h with
  | same _ _ _ hcell => exact .inl hcell
  | fresh hn => exact absurd ha hn
  | queued _ _ _ hsleep hcell =>
      obtain ⟨p, x, buf, n, e, hp, hless, hk, he, rfl⟩ := hsleep trivial
      refine .inr (.inl ⟨p, hp, ⟨x, buf, n, e, hk, by rwa [hid]⟩, ⟨n, ?_, ?_⟩, ?_, ?_⟩)
      · simp [request, hk]
      · rw [hcell]
        exact hless
      · rw [hcell]
      · rw [hcell]
  | read _ _ _ _ _ _ hwake hcell => exact .inr (.inr ⟨hwake trivial, by rw [hcell]⟩)
  | write _ _ _ _ _ _ hwake hcell => exact .inr (.inr ⟨hwake trivial, by rw [hcell]⟩)

/-- A process that continues with a pipe queues up again, or it wakes the next one. -/
theorem ReadsFrom.turn {k : KernelContext} {o : Outcome} {τ : Kernel} (h : σ.ReadsFrom a k)
    (ha : a ∈ σ.pipes.list) (hcall : ((σ.begin l).restore q).Calling q)
    (hs : ((σ.begin l).restore q).resumeCall q k = some (o, τ)) :
    ((∃ x buf n e, k = .pipeRead a x buf n e ∧ (σ.pipes.cell a).curLen < n) ∧
        (τ.pipes.cell a).pipeWaitList = (σ.pipes.cell a).pipeWaitList ++ [q]) ∨
      (τ.pipes.cell a).pipeWaitList = (σ.pipes.cell a).pipeWaitList.tail := by
  obtain ⟨x, buf, n, e, rfl, he⟩ := h
  change ((σ.begin l).restore q).sysPipeReadResume q a x buf n e = _ at hs
  have hexist : (e || ((σ.begin l).restore q).pipes.any fun p1 => p1.pipeid = x) = true := by
    rcases he with rfl | rfl
    · rfl
    · exact Bool.or_eq_true_iff.2 (.inr (Table.any_eq_true.2 ⟨a, ha, decide_eq_true rfl⟩))
  unfold sysPipeReadResume at hs
  dsimp only at hs
  rw [if_pos hexist] at hs
  obtain ⟨-, ⟨hless, -, w, hwrite, hsleep⟩ | ⟨-, htake⟩⟩ := pipeReadLoop_cases hs
  · left
    refine ⟨⟨x, buf, n, e, rfl, hless⟩, ?_⟩
    rw [hwrite, Table.cell_write_self (by exact ha), (hsleep hcall).2]
    rfl
  · right
    obtain ⟨-, -, -, hwrite⟩ := takeBytes_cases (by exact ha) htake
    rw [hwrite, Table.cell_write_self (by exact ha)]
    rfl

/-! ## The invariant -/

/-- Waiting readers will continue with the pipe, and woken ones are due there. -/
structure ReaderWaits (tr : List (Move Kernel Label)) (σ : Kernel) (a : ℕ) : Prop where
  parked : ∀ q ∈ (σ.pipes.cell a).pipeWaitList, σ.ReadsFrom a (σ.pcb q).kctxt
  due : ∀ q, ReaderWoken a q tr → σ.Due q (σ.pcb q).kctxt ∧ σ.ReadsFrom a (σ.pcb q).kctxt

/-- When a woken reader runs and finds fewer bytes than it asked for, no waiting process
asked for so few, or another woken reader is still to run. -/
def PassesOn (a : ℕ) (tr : List (Move Kernel Label)) (σ : Kernel) : Prop :=
  ∀ p, σ.activeProc = some p → ReaderWoken a p tr →
    (∃ n ∈ σ.request p, (σ.pipes.cell a).curLen < n) →
      σ.Starves a → ∃ q, q ≠ p ∧ ReaderWoken a q tr

theorem ReaderWoken.live {C : Kernel → Label → Kernel → Prop} {σ₀ : Kernel}
    (hr : Run step C σ₀ tr σ) (h : ReaderWoken a q tr) : a ∈ σ.pipes.list := by
  cases hr with
  | start => exact absurd h not_since_nil
  | snoc hr hs hc =>
      rcases since_snoc.1 h with hwakes | ⟨-, -, ha⟩
      · exact hwakes.2.1
      · exact ha

/-- The process that is taken out of the waiting list is due. -/
theorem ReaderWaits.wake (h : ReaderWaits tr σ a) (hinv : σ.Placed) (hst : σ.Stacked)
    (hs : Steps σ l σ') (hpipe : PipeStep True σ σ' l a) (hw : WakesReader a q ⟨σ, l, σ'⟩) :
    σ'.Due q (σ'.pcb q).kctxt ∧ σ'.ReadsFrom a (σ'.pcb q).kctxt := by
  obtain ⟨ha, -, hq, hq'⟩ := hw
  dsimp only at ha hq hq'
  have hfrom := h.parked q hq
  have hk := hst.kctxt hs (hinv.reader ha hq) hfrom.ne.1
  refine ⟨⟨rfl, .inl ?_⟩, hk ▸ hfrom.step hpipe ha⟩
  rcases hpipe.waiting ha with hsame | ⟨p, -, -, -, -, happ⟩ | ⟨hready, htail⟩
  · exact absurd (hsame ▸ hq) hq'
  · rw [happ] at hq'
    exact absurd (List.mem_append_left _ hq) hq'
  · cases hl : (σ.pipes.cell a).pipeWaitList with
    | nil => simp [hl] at hq
    | cons r rest =>
        rw [hl] at hq hready
        rw [htail, hl] at hq'
        obtain rfl : q = r := (List.mem_cons.1 hq).resolve_right hq'
        exact hready q rfl

/-- A pipe that a step creates has no waiting process. -/
theorem PipeStep.created (h : PipeStep True σ σ' l a) (ha : a ∉ σ.pipes.list) :
    (σ'.pipes.cell a).pipeWaitList = [] := by
  cases h with
  | fresh _ x hcell => rw [hcell]
  | same hm => exact absurd hm ha
  | queued hm => exact absurd hm ha
  | read hm => exact absurd hm ha
  | write hm => exact absurd hm ha

/-- A waiting process stays where it is. -/
theorem ReaderWaits.kctxt (h : ReaderWaits tr σ a) (hinv : σ.Placed) (hst : σ.Stacked)
    (hs : Steps σ l σ') (ha : a ∈ σ.pipes.list) (hq : q ∈ (σ.pipes.cell a).pipeWaitList) :
    (σ'.pcb q).kctxt = (σ.pcb q).kctxt :=
  hst.kctxt hs (hinv.reader ha hq) (h.parked q hq).ne.1

theorem ReaderWaits.step (h : a ∈ σ.pipes.list → ReaderWaits tr σ a)
    (hlive : ∀ q, ReaderWoken a q tr → a ∈ σ.pipes.list) (hinv : σ.Placed) (hst : σ.Stacked)
    (hs : Steps σ l σ') (hal : σ.Allocates l σ') (hi : σ.IdlePauses l)
    (ha' : a ∈ σ'.pipes.list) : ReaderWaits (tr ++ [⟨σ, l, σ'⟩]) σ' a := by
  have hpipe : PipeStep True σ σ' l a := pipe_step (fun _ => ⟨hinv, hal, hi⟩) hs ha'
  by_cases ha : a ∈ σ.pipes.list
  swap
  · have hnil := hpipe.created ha
    refine ⟨fun q hq => ?_, fun q hw => ?_⟩
    · simp [hnil] at hq
    · rcases since_snoc.1 hw with hwakes | ⟨hw, -⟩
      · exact absurd hwakes.1 ha
      · exact absurd (hlive q hw) ha
  have hinvar := h ha
  have hkeep : ∀ q ∈ (σ.pipes.cell a).pipeWaitList, σ'.ReadsFrom a (σ'.pcb q).kctxt :=
    fun q hq => hinvar.kctxt hinv hst hs ha hq ▸ (hinvar.parked q hq).step hpipe ha
  constructor
  · intro q hq
    rcases hpipe.waiting ha with hsame | ⟨p, -, hfrom, -, -, happ⟩ | ⟨-, htail⟩
    · exact hkeep q (hsame ▸ hq)
    · rw [happ] at hq
      rcases List.mem_append.1 hq with hq | hq
      · exact hkeep q hq
      · obtain rfl := List.mem_singleton.1 hq
        exact hfrom
    · rw [htail] at hq
      exact hkeep q (List.mem_of_mem_tail hq)
  · intro q hw
    rcases since_snoc.1 hw with hwakes | ⟨hw, hne, -⟩
    · exact hinvar.wake hinv hst hs hpipe hwakes
    · obtain ⟨hdue, hfrom⟩ := hinvar.due q hw
      have hdue' := hdue.step hinv hst hs hal hi hfrom.ne hne
      rw [hdue'.kctxt]
      exact ⟨hdue', hfrom.step hpipe ha⟩

/-- A woken reader that runs queues up again for want of bytes, or wakes the next one. -/
theorem ReaderWaits.runs (h : ReaderWaits tr σ a) (hinv : σ.Placed) (hs : Steps σ l σ')
    (hal : σ.Allocates l σ') (ha : a ∈ σ.pipes.list) (hw : ReaderWoken a q tr)
    (hq : σ.activeProc = some q) :
    ((∃ n ∈ σ.request q, (σ.pipes.cell a).curLen < n) ∧
        (σ'.pipes.cell a).pipeWaitList = (σ.pipes.cell a).pipeWaitList ++ [q]) ∨
      (σ'.pipes.cell a).pipeWaitList = (σ.pipes.cell a).pipeWaitList.tail := by
  obtain ⟨hdue, hfrom⟩ := h.due q hw
  obtain ⟨-, o, τ, hcall, rfl⟩ := hdue.resume hinv hs hq
  rw [finish_pipes]
  refine (hfrom.turn ha (hinv.continuing hal hq hfrom.ne) hcall).imp_left fun hless => ?_
  obtain ⟨⟨x, buf, n, e, hk, hn⟩, happ⟩ := hless
  exact ⟨⟨n, by simp [request, hk], hn⟩, happ⟩

/-- A step keeps a woken reader on its way, or wakes one. -/
theorem ReaderWaits.woken (h : ReaderWaits tr σ a)
    (hwoken : σ.Starves a → ∃ q, ReaderWoken a q tr) (hinv : σ.Placed) (hst : σ.Stacked)
    (hs : Steps σ l σ') (hal : σ.Allocates l σ') (hi : σ.IdlePauses l) (hpass : PassesOn a tr σ)
    (ha : a ∈ σ.pipes.list) (ha' : a ∈ σ'.pipes.list) (hstarves : σ'.Starves a) :
    ∃ q, ReaderWoken a q (tr ++ [⟨σ, l, σ'⟩]) := by
  obtain ⟨q, hq, n, hn, hle⟩ := hstarves
  have hstill : ∀ {q}, ReaderWoken a q tr → σ.activeProc ≠ some q →
      ∃ q, ReaderWoken a q (tr ++ [⟨σ, l, σ'⟩]) := fun hw hne =>
    ⟨_, since_snoc.2 (.inr ⟨hw, hne, ha'⟩)⟩
  -- a request is read off the place where a process sleeps
  have hrequest : q ∈ (σ.pipes.cell a).pipeWaitList → n ∈ σ.request q := fun hm => by
    unfold request at hn ⊢
    rwa [h.kctxt hinv hst hs ha hm] at hn
  rcases PipeStep.waiting (pipe_step (fun _ => ⟨hinv, hal, hi⟩) hs ha') ha with
    hsame | ⟨p, hp, -, ⟨n', hn', hless⟩, hlen, happ⟩ | ⟨-, htail⟩
  · rw [hsame] at hq hle
    obtain ⟨r, hr⟩ := hwoken ⟨q, hq, n, hrequest hq, hle⟩
    refine hstill hr fun hact => ?_
    rcases h.runs hinv hs hal ha hr hact with ⟨-, happ⟩ | htail
    · rw [hsame] at happ
      simp at happ
    · rw [hsame] at htail
      have hlength := congrArg List.length htail
      rw [List.length_tail] at hlength
      have hpos := List.length_pos_of_mem hq
      omega
  · have hm : q ∈ (σ.pipes.cell a).pipeWaitList := by
      rw [happ] at hq
      refine (List.mem_append.1 hq).resolve_right fun hqp => ?_
      obtain rfl := List.mem_singleton.1 hqp
      obtain rfl := Option.some.inj (hn'.symm.trans hn)
      omega
    rw [hlen] at hle
    have hold : σ.Starves a := ⟨q, hm, n, hrequest hm, hle⟩
    by_cases hwp : ReaderWoken a p tr
    · rcases h.runs hinv hs hal ha hwp hp with ⟨hshort, -⟩ | htail
      · obtain ⟨r, hne, hr⟩ := hpass p hp hwp hshort hold
        exact hstill hr fun hact => hne (Option.some.inj (hact.symm.trans hp))
      · have hlength := congrArg List.length (htail.symm.trans happ)
        simp at hlength
    · obtain ⟨r, hr⟩ := hwoken hold
      refine hstill hr fun hact => hwp ?_
      rwa [Option.some.inj (hp.symm.trans hact)]
  · cases hl : (σ.pipes.cell a).pipeWaitList with
    | nil => simp [htail, hl] at hq
    | cons r rest =>
        have hnodup := (hinv.asleep (pipe_blocked ha)).1
        rw [hl] at hnodup
        refine ⟨r, since_snoc.2 (.inl ⟨ha, ha', ?_, ?_⟩)⟩
        · simp [hl]
        · dsimp only
          rw [htail, hl]
          exact (List.nodup_cons.1 hnodup).1

/-! ## All runs -/

variable {b : Boot} {σ₀ : Kernel}

theorem readerWaits_of_run (hok : ∀ a ∈ b.procMallocs, a.ok = true)
    (h₀ : kernelStart b = some σ₀)
    (h : Run step (fun σ l σ' => σ.Allocates l σ' ∧ σ.IdlePauses l) σ₀ tr σ)
    (ha : a ∈ σ.pipes.list) : ReaderWaits tr σ a := by
  induction h with
  | start =>
      rw [(kernelStart_booted h₀).pipes] at ha
      exact absurd ha List.not_mem_nil
  | snoc hr hs hc ih =>
      obtain ⟨hinv, hst⟩ := stacked_of_run hok h₀ hr
      exact .step ih (fun q hw => hw.live hr) hinv hst (step_cases hs) hc.1 hc.2 ha

/-- In every run in which allocations succeed, idle only pauses and each woken reader of
the pipe passes its wake-up on, no reader sleeps beside as many bytes as it asked for
unless a process that has been taken out of the waiting list is active or ready and has
not tested the pipe again. -/
theorem run_reader_wakes (hok : ∀ a ∈ b.procMallocs, a.ok = true)
    (h₀ : kernelStart b = some σ₀)
    (h : Run step (fun σ l σ' => σ.Allocates l σ' ∧ σ.IdlePauses l) σ₀ tr σ)
    (hpass : ∀ tr₁ m tr₂, tr = tr₁ ++ m :: tr₂ → PassesOn a tr₁ m.before)
    (ha : a ∈ σ.pipes.list) (hstarves : σ.Starves a) :
    ∃ q, ReaderWoken a q tr ∧ (σ.activeProc = some q ∨ q ∈ σ.readyQueue) := by
  suffices hw : ∃ q, ReaderWoken a q tr by
    obtain ⟨q, hq⟩ := hw
    exact ⟨q, hq, ((readerWaits_of_run hok h₀ h ha).due q hq).1.place.symm.imp_left And.left⟩
  induction h with
  | start =>
      rw [(kernelStart_booted h₀).pipes] at ha
      exact absurd ha List.not_mem_nil
  | @snoc tr σ σ' l hr hs hc ih =>
      obtain ⟨hinv, hst⟩ := stacked_of_run hok h₀ hr
      by_cases hold : a ∈ σ.pipes.list
      · refine (readerWaits_of_run hok h₀ hr hold).woken (fun hst => ?_) hinv hst (step_cases hs)
          hc.1 hc.2 (hpass tr _ [] rfl) hold ha hstarves
        exact ih (fun tr₁ m tr₂ he => hpass tr₁ m (tr₂ ++ [⟨σ, l, σ'⟩]) (by rw [he]; simp)) hold hst
      · obtain ⟨q, hq, -⟩ := hstarves
        rw [PipeStep.created (pipe_step (fun _ => ⟨hinv, hc⟩) (step_cases hs) ha) hold] at hq
        exact absurd hq List.not_mem_nil

/-- The theorem on a run in which init wakes the first of two waiting children, and the
second one could be served. -/
theorem run_reader_wakes_children : ∃ σ₀ tr σ, kernelStart smallBoot = some σ₀ ∧
    Run step (fun σ l σ' => σ.Allocates l σ' ∧ σ.IdlePauses l) σ₀ tr σ ∧
    (σ.pipes.cell 0).pipeWaitList = [3] ∧ σ.Starves 0 ∧
    ∃ q, ReaderWoken 0 q tr ∧ (σ.activeProc = some q ∨ q ∈ σ.readyQueue) := by
  obtain ⟨σ₀, tr, σ, h₀, hr, ha, hwait, hstarves⟩ := bootExec_state (b := smallBoot)
    (C := fun σ l σ' => (σ.Allocates l σ' ∧ σ.IdlePauses l) ∧ ¬σ.Starves 0)
    (t := [smallCall .pipeInit vmem1Base 0 0, smallCall .fork 0 0 0, smallCall .fork 0 0 0,
      clockTick, resumption, smallCall .pipeRead 1 (vmem1Base + 8) 10, resumption,
      smallCall .pipeRead 1 (vmem1Base + 8) 1, resumption, smallCall .pipeWrite 1 vmem1Base 5])
    (P := fun σ => 0 ∈ σ.pipes.list ∧ (σ.pipes.cell 0).pipeWaitList = [3] ∧ σ.Starves 0)
    (by decide +kernel)
  have hrun := hr.mono fun _ _ _ _ hc => hc.1
  refine ⟨σ₀, tr, σ, h₀, hrun, hwait, hstarves,
    run_reader_wakes (by decide) h₀ hrun (fun tr₁ m tr₂ he => ?_) ha hstarves⟩
  obtain ⟨-, -, -, -, hcalm⟩ := hr.reaches_before (m := m) (by simp [he])
  exact fun _ _ _ _ hst => absurd hst hcalm

/-- A woken child that finds too few bytes queues up behind one that could be served, and
no process is on its way to wake that one. -/
theorem run_reader_strands : ∃ σ₀ tr σ, kernelStart smallBoot = some σ₀ ∧
    Run step (fun σ l σ' => σ.Allocates l σ' ∧ σ.IdlePauses l) σ₀ tr σ ∧
    0 ∈ σ.pipes.list ∧ σ.Starves 0 ∧ (σ.pipes.cell 0).pipeWaitList = [3, 2] ∧
    ¬∃ q, ReaderWoken 0 q tr ∧ (σ.activeProc = some q ∨ q ∈ σ.readyQueue) := by
  obtain ⟨σ₀, tr, σ, h₀, hr, ha, hstarves, hwait, hactive, hready, hinit, hidle⟩ :=
    bootExec_state (b := smallBoot)
    (C := fun σ l σ' => σ.Allocates l σ' ∧ σ.IdlePauses l)
    (t := [smallCall .pipeInit vmem1Base 0 0, smallCall .fork 0 0 0, smallCall .fork 0 0 0,
      clockTick, resumption, smallCall .pipeRead 1 (vmem1Base + 8) 10, resumption,
      smallCall .pipeRead 1 (vmem1Base + 8) 1, resumption, smallCall .pipeWrite 1 vmem1Base 5,
      clockTick, resumption])
    (P := fun σ => 0 ∈ σ.pipes.list ∧ σ.Starves 0 ∧ (σ.pipes.cell 0).pipeWaitList = [3, 2] ∧
      σ.activeProc = some 0 ∧ σ.readyQueue = [idle] ∧ σ.request 0 = none ∧
      σ.request idle = none)
    (by decide +kernel)
  refine ⟨σ₀, tr, σ, h₀, hr, ha, hstarves, hwait, ?_⟩
  rintro ⟨q, hq, hplace⟩
  -- a woken reader is in PipeRead, and neither init nor idle is
  obtain ⟨-, x, buf, n, e, hk, -⟩ := (readerWaits_of_run (by decide) h₀ hr ha).due q hq
  have hrequest : σ.request q = some n := by simp [request, hk]
  rcases hplace with hact | hmem
  · obtain rfl := Option.some.inj (hactive.symm.trans hact)
    simp [hinit] at hrequest
  · rw [hready] at hmem
    obtain rfl := List.mem_singleton.1 hmem
    simp [hidle] at hrequest

end Kernel

end Yalnix
