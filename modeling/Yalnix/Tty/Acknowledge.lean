import Yalnix.Tty.Wait

/-!
# No TtyWrite overtakes its acknowledgement

The interrupt for a terminal may wake a writer whose own chunk is still to be sent. A
writer that has sent one nevertheless stays in `io_list` until the interrupt of its
terminal, since no other step takes it out, so it does not run before its chunk has been
acknowledged.
-/

namespace Yalnix

open Transition

namespace Kernel

variable {σ σ' : Kernel} {l : Label} {p q : Pid} {t : Int} {tr : List (Move Kernel Label)}

/-- In this move process `p` transmits on terminal `t`. -/
def Transmits (t : Int) (p : Pid) (m : Move Kernel Label) : Prop :=
  m.before.activeProc = some p ∧ m.before.sent t < m.after.sent t

/-- Process `p` has transmitted a chunk on terminal `t`, and there has been no interrupt
for it since then. -/
def Unacked (t : Int) (p : Pid) (tr : List (Move Kernel Label)) : Prop :=
  Since (Transmits t p) (fun m => m.label.ack ≠ some t) tr

/-- A step takes a process that waits for terminal `t` out of `io_list` only when it is
the interrupt for `t`. -/
theorem TtyStep.mem (h : TtyStep σ σ' l) (hack : l.ack ≠ some t) (hq : q ∈ σ.ioList)
    (hwaits : σ.Awaits t q) : q ∈ σ'.ioList := by
  cases h with
  | same _ _ hio => exact hio ▸ hq
  | reads _ _ _ _ _ hio => exact hio ▸ List.mem_append_left _ hq
  | waits _ _ _ _ _ _ hio => exact hio ▸ List.mem_append_left _ hq
  | sends _ _ _ _ _ hio => exact hio ▸ List.mem_append_left _ hq
  | received _ _ hio =>
      obtain ⟨q', hio, hstate⟩ := hio
      rw [hio] at hq
      refine (List.mem_cons.1 hq).resolve_left ?_
      rintro rfl
      simp [hwaits.1] at hstate
  | raised t' hl _ _ hio _ =>
      rw [hio, List.mem_eraseP_of_neg]
      · exact hq
      · intro hq'
        have ht : t' = t := (of_decide_eq_true hq').2.trans hwaits.2.symm
        exact hack (ht ▸ hl)

/-- Only a process that sleeps for its acknowledgement afterwards transmits. -/
theorem TtyStep.transmits (h : TtyStep σ σ' l) (hp : σ.activeProc = some p)
    (hsent : σ.sent t < σ'.sent t) : p ∈ σ'.ioList ∧ σ'.Awaits t p := by
  have hsame : σ'.transmitted = σ.transmitted → σ.sent t = σ'.sent t := fun he => by
    rw [sent, sent, he]
  cases h with
  | same _ hlines => exact absurd (hsame hlines.2) hsent.ne
  | reads _ _ _ hlines => exact absurd (hsame hlines.2) hsent.ne
  | waits _ _ _ _ hlines => exact absurd (hsame hlines.2) hsent.ne
  | received _ hlines => exact absurd (hsame hlines.2) hsent.ne
  | raised _ _ _ he => exact absurd (hsame he) hsent.ne
  | sends p' t' r _ hp' hio _ _ hbytes hwaits =>
      obtain rfl := Option.some.inj (hp'.symm.trans hp)
      obtain ⟨bytes, hbytes⟩ := hbytes
      have ht : t' = t := by
        by_contra hne
        simp [sent, hbytes, List.countP_append, hne] at hsent
      exact ⟨by simp [hio], ht ▸ hwaits⟩

variable {b : Boot} {σ₀ : Kernel}

/-- A process with an unacknowledged transmission sleeps in `io_list`. -/
theorem Unacked.sleeps (hok : ∀ a ∈ b.procMallocs, a.ok = true) (h₀ : kernelStart b = some σ₀)
    (hr : Run step (fun σ l σ' => σ.Allocates l σ' ∧ σ.IdlePauses l) σ₀ tr σ)
    (h : Unacked t p tr) : p ∈ σ.ioList ∧ σ.Awaits t p := by
  induction hr with
  | start => exact absurd h not_since_nil
  | @snoc tr σ σ' l hr hs hc ih =>
      obtain ⟨hinv, hst⟩ := stacked_of_run hok h₀ hr
      have htty := tty_step hinv (writers_of_run hok h₀ hr) (step_cases hs) hc.1 hc.2
      rcases since_snoc.1 h with ⟨hp, hsent⟩ | ⟨hold, hack⟩
      · exact htty.transmits hp hsent
      · obtain ⟨hmem, hwaits⟩ := ih hold
        exact ⟨htty.mem hack hmem hwaits,
          hwaits.keep (io_keeps hinv hst (step_cases hs) hmem).1⟩

/-- A call that returns goes back to user code. -/
theorem outcome_user {v : Int} (h : Steps σ l σ') (ho : σ.outcome l = some (.ret v)) :
    σ'.userMode = true := by
  have hfinish : ∀ {o : Outcome} {τ : Kernel}, σ.outcome l = some o → σ' = finish (o, τ) →
      σ'.userMode = true := by
    rintro o τ ho' rfl
    obtain rfl := Option.some.inj (ho'.symm.trans ho)
    rfl
  obtain ⟨p, -, he⟩ := Option.bind_eq_some_iff.1 ho
  split at he
  · obtain ⟨c, hc, -⟩ := Option.bind_eq_some_iff.1 he
    obtain ⟨u, p, o, τ, -, -, -, -, hσ', ho'⟩ := h.of_call hc
    exact hfinish ho' hσ'
  · rename_i hl
    obtain ⟨p, o, τ, -, -, -, hσ', ho'⟩ := h.of_resume hl
    exact hfinish ho' hσ'
  · exact absurd he (by simp)

/-- A process to which a call returns has no unacknowledged transmission. -/
theorem not_unacked {v : Int} {m : Move Kernel Label} (hok : ∀ a ∈ b.procMallocs, a.ok = true)
    (h₀ : kernelStart b = some σ₀)
    (hr : Run step (fun σ l σ' => σ.Allocates l σ' ∧ σ.IdlePauses l) σ₀ tr m.before)
    (hs : m.before.step m.label = some m.after) (hal : m.before.Allocates m.label m.after)
    (hi : m.before.IdlePauses m.label) (hp : m.before.activeProc = some p)
    (ho : m.before.outcome m.label = some (.ret v)) : ¬Unacked t p (tr ++ [m]) := by
  intro hunacked
  have hr' : Run step (fun σ l σ' => σ.Allocates l σ' ∧ σ.IdlePauses l) σ₀ (tr ++ [m]) m.after :=
    hr.snoc hs ⟨hal, hi⟩
  obtain ⟨hmem, -⟩ := hunacked.sleeps hok h₀ hr'
  obtain ⟨hlive, hact, -⟩ := (stacked_of_run hok h₀ hr').1.io_waiter hmem
  rcases step_leaves (stacked_of_run hok h₀ hr).1 (step_cases hs) hal hp with
    hu | ⟨-, -, hm⟩ | hdead
  · exact hact hu.1
  · exact absurd (hm.symm.trans (outcome_user (step_cases hs) ho)) (by simp)
  · exact hdead hlive

/-- In every run in which terminals raise at most one interrupt for each transmission and
after it, a chunk is transmitted only when all earlier ones on its terminal have been
acknowledged, and a terminal is busy exactly while its last one has not. When allocations
succeed and idle only pauses, a call returns only to a process all of whose chunks have
been acknowledged. -/
theorem run_transmissions (h₀ : kernelStart b = some σ₀)
    (h : Run step (fun _ _ _ => True) σ₀ tr σ) (hraised : Raised tr) (t : Int) :
    (∀ tr₁ m tr₂, tr = tr₁ ++ m :: tr₂ → m.before.sent t < m.after.sent t →
      m.before.sent t = acks t tr₁ ∧ m.after.sent t = acks t tr₁ + 1) ∧
    (σ.busyTerminal t = true ↔ acks t tr < σ.sent t) ∧
    ((∀ a ∈ b.procMallocs, a.ok = true) →
      (∀ m ∈ tr, m.before.Allocates m.label m.after ∧ m.before.IdlePauses m.label) →
      ∀ tr₁ m tr₂ p v, tr = tr₁ ++ m :: tr₂ → m.before.activeProc = some p →
        m.before.outcome m.label = some (.ret v) → ¬Unacked t p (tr₁ ++ [m])) := by
  refine ⟨fun tr₁ m tr₂ htr hlt => ?_, ?_, fun hok hcalm tr₁ m tr₂ p v htr hp ho => ?_⟩
  · obtain ⟨hr, hs, -⟩ := h.upTo htr
    have hsent := sent_of_run h₀ hr (hraised.upTo htr) t
    cases line_step (step_cases hs) t with
    | same _ _ he => exact absurd he hlt.ne'
    | acked _ _ he => exact absurd he hlt.ne'
    | sends _ hidle _ he =>
        rw [hidle] at hsent
        exact ⟨hsent, he.trans (congrArg (· + 1) hsent)⟩
  · have hsent := sent_of_run h₀ h hraised t
    cases hb : σ.busyTerminal t with
    | true => simp [hsent, hb]
    | false => simp [hsent, hb]
  · obtain ⟨hr, hs, hal, hi⟩ := (h.restrict (D := fun σ l σ' => σ.Allocates l σ' ∧ σ.IdlePauses l)
      hcalm).upTo htr
    exact not_unacked hok h₀ hr hs hal hi hp ho

/-- The theorem on a run in which init writes to terminal 0, sleeps while idle runs, and
returns after the interrupt. -/
theorem run_transmissions_init : ∃ σ₀ tr σ, kernelStart smallBoot = some σ₀ ∧
    Run step (fun _ _ _ => True) σ₀ tr σ ∧ Raised tr ∧ σ.sent 0 = 1 ∧
    σ.inUser 0 ∧ (σ.busyTerminal 0 = true ↔ acks 0 tr < σ.sent 0) ∧
    ∀ tr₁ m tr₂ p v, tr = tr₁ ++ m :: tr₂ → m.before.activeProc = some p →
      m.before.outcome m.label = some (.ret v) → ¬Unacked 0 p (tr₁ ++ [m]) := by
  obtain ⟨σ₀, tr, σ, h₀, hr, hls, hsent, huser⟩ := bootExec_trace (b := smallBoot)
    (C := fun σ l σ' => (σ.Allocates l σ' ∧ σ.IdlePauses l) ∧ ∀ t ∈ l.ack, 0 < σ.sent t)
    (t := [smallCall .ttyWrite 0 vmem1Base 5, resumption, transmitDone 0, clockTick, resumption])
    (P := fun σ => σ.sent 0 = 1 ∧ σ.inUser 0) (by decide +kernel)
  have hmoves : ∀ m ∈ tr, (m.before.Allocates m.label m.after ∧ m.before.IdlePauses m.label) ∧
      ∀ t ∈ m.label.ack, 0 < m.before.sent t := fun m hm =>
    (hr.reaches_before hm).choose_spec.2.2
  have hraised : Raised tr := .of_once (by rw [hls]; decide) fun m hm => (hmoves m hm).2
  have hrun := hr.mono (D := fun _ _ _ => True) fun _ _ _ _ _ => trivial
  obtain ⟨-, hbusy, hreturns⟩ := run_transmissions h₀ hrun hraised 0
  exact ⟨σ₀, tr, σ, h₀, hrun, hraised, hsent, huser, hbusy,
    hreturns (by decide) fun m hm => (hmoves m hm).1⟩

/-- A TtyWrite that cannot have a node for `io_list` fails after it has transmitted, and
its chunk has not been acknowledged. -/
theorem run_transmissions_malloc : ∃ σ₀ tr m σ, kernelStart smallBoot = some σ₀ ∧
    Run step (fun _ _ _ => True) σ₀ (tr ++ [m]) σ ∧ Raised (tr ++ [m]) ∧
    m.label.call = some .ttyWrite ∧ m.before.activeProc = some 0 ∧
    m.before.outcome m.label = some (.ret error) ∧ Unacked 0 0 (tr ++ [m]) := by
  have hboot : ((kernelStart smallBoot).bind fun σ =>
      (σ.step { smallCall .ttyWrite 0 vmem1Base 5 with mallocs := [{ ok := false }] }).map fun σ' =>
        decide (σ.activeProc = some 0 ∧
          σ.outcome { smallCall .ttyWrite 0 vmem1Base 5 with mallocs := [{ ok := false }] } =
            some (.ret error) ∧ σ.sent 0 < σ'.sent 0)) = some true := by decide +kernel
  obtain ⟨σ₀, h₀, hs⟩ := Option.bind_eq_some_iff.1 hboot
  obtain ⟨σ', hs, hP⟩ := Option.map_eq_some_iff.1 hs
  obtain ⟨hp, ho, hsent⟩ := of_decide_eq_true hP
  refine ⟨σ₀, [], ⟨σ₀, _, σ'⟩, σ', h₀, .snoc .start hs trivial, ?_, rfl, hp, ho,
    since_snoc.2 (.inl ⟨hp, hsent⟩)⟩
  refine .of_once (by simp [Label.ack, smallCall]) fun m hm t ht => ?_
  obtain rfl := List.mem_singleton.1 hm
  simp [Label.ack, smallCall] at ht

end Kernel

end Yalnix
