import Yalnix.Tty.Acknowledge

/-!
# Wake-ups of writers

The transmit interrupt frees the line of its terminal and wakes the first process that
waits for the terminal. That one may have waited for the acknowledgement of its last chunk
and return, and then nobody wakes a writer that waits for the line. No writer sleeps beside
a free line as long as the process that is woken, or one on its way, has a chunk left.
-/

namespace Yalnix

open Transition

namespace Kernel

variable {σ σ' : Kernel} {l : Label} {p q : Pid} {t r : Int} {tr : List (Move Kernel Label)}

/-- How many bytes the TtyWrite of `q` to terminal `t` has still to transmit. -/
def remainBytes (σ : Kernel) (t : Int) (q : Pid) : Option Int :=
  match (σ.pcb q).kctxt with
  | .ttyBusy t' r | .ttySent t' r => if t' = t then some r else none
  | _ => none

/-- Process `q` is in a TtyWrite to terminal `t` and has still a chunk to transmit. -/
def HasChunk (σ : Kernel) (t : Int) (q : Pid) : Prop := ∃ r ∈ σ.remainBytes t q, 0 < r

/-- The terminal for which a process at `k` waits in the inner loop of `sys_TtyWrite`. -/
def busyLoop : KernelContext → Option Int
  | .ttyBusy t _ => some t
  | _ => none

/-- Some process waits for terminal `t` to stop being busy. -/
def LineAwaited (σ : Kernel) (t : Int) : Prop :=
  ∃ q ∈ σ.ioList, busyLoop (σ.pcb q).kctxt = some t

instance (σ : Kernel) (t : Int) (q : Pid) : Decidable (σ.HasChunk t q) :=
  inferInstanceAs (Decidable (∃ r ∈ _, _))

instance (σ : Kernel) (t : Int) : Decidable (σ.LineAwaited t) :=
  inferInstanceAs (Decidable (∃ q ∈ _, _))

/-- In this move the interrupt for terminal `t` wakes process `q`. -/
def WakesWriter (t : Int) (q : Pid) (m : Move Kernel Label) : Prop :=
  m.label.ack = some t ∧ q ∈ m.before.ioList ∧ q ∉ m.after.ioList

/-- The interrupt for terminal `t` has woken process `q`, which has not run since. -/
def WriterWoken (t : Int) (q : Pid) (tr : List (Move Kernel Label)) : Prop :=
  Since (WakesWriter t q) (fun m => m.before.activeProc ≠ some q) tr

/-- An interrupt for terminal `t` that comes while a process waits for the line wakes a
process that has a chunk left, or one that has been woken before has. -/
def WakesUsefully (t : Int) (tr : List (Move Kernel Label)) (σ : Kernel) (l : Label) : Prop :=
  l.ack = some t → σ.LineAwaited t →
    (∃ q ∈ σ.ioList.find? fun q => σ.Awaits t q, σ.HasChunk t q) ∨
      ∃ q, WriterWoken t q tr ∧ σ.HasChunk t q

theorem hasChunk_iff : σ.HasChunk t q ↔ ∃ r, 0 < r ∧ Writes t r (σ.pcb q).kctxt := by
  constructor
  · rintro ⟨r, hr, hpos⟩
    refine ⟨r, hpos, ?_⟩
    unfold remainBytes at hr
    split at hr
    · rename_i t' r' hk
      split at hr
      · obtain rfl := Option.some.inj hr
        exact .inl (by rw [hk, ‹t' = t›])
      · exact absurd hr (by simp)
    · rename_i t' r' hk
      split at hr
      · obtain rfl := Option.some.inj hr
        exact .inr (by rw [hk, ‹t' = t›])
      · exact absurd hr (by simp)
    · exact absurd hr (by simp)
  · rintro ⟨r, hpos, hk⟩
    refine ⟨r, ?_, hpos⟩
    rcases hk with hk | hk <;> simp [remainBytes, hk]

theorem HasChunk.keep (h : σ.HasChunk t q) (hk : (σ'.pcb q).kctxt = (σ.pcb q).kctxt) :
    σ'.HasChunk t q := by
  unfold HasChunk remainBytes at h ⊢
  rwa [hk]

/-! ## One step -/

/-- Only the interrupt for `t` frees the line of `t`, and only a process that finds it
busy begins to wait for it. -/
theorem TtyStep.line (h : TtyStep σ σ' l) (t : Int) : l.ack = some t ∨
    σ'.busyTerminal t = true ∨ (σ'.busyTerminal t = σ.busyTerminal t ∧
      ∀ q ∈ σ'.ioList, busyLoop (σ'.pcb q).kctxt = some t → q ∈ σ.ioList) := by
  have hlast : ∀ {p q : Pid}, σ'.ioList = σ.ioList ++ [p] → q ∈ σ'.ioList → q ≠ p →
      q ∈ σ.ioList := fun hio hq hne => by
    rw [hio] at hq
    exact (List.mem_append.1 hq).resolve_right fun hqp => hne (List.mem_singleton.1 hqp)
  cases h with
  | same _ hlines hio => exact .inr (.inr ⟨by rw [hlines.1], fun q hq _ => hio ▸ hq⟩)
  | reads p t' _ hlines _ hio hk =>
      refine .inr (.inr ⟨by rw [hlines.1], fun q hq hloop => hlast hio hq ?_⟩)
      rintro rfl
      simp [hk, busyLoop] at hloop
  | waits p t' r _ hlines _ hio _ hbusy _ hk =>
      by_cases ht : t' = t
      · exact .inr (.inl (by rw [hlines.1, ← ht, hbusy]))
      · refine .inr (.inr ⟨by rw [hlines.1], fun q hq hloop => hlast hio hq ?_⟩)
        rintro rfl
        rw [hk] at hloop
        exact ht (Option.some.inj hloop)
  | sends p t' r _ _ hio _ hbusy _ _ hk =>
      rw [hbusy]
      by_cases ht : t' = t
      · subst ht
        exact .inr (.inl (Function.update_self ..))
      · refine .inr (.inr ⟨Function.update_of_ne (Ne.symm ht) .., fun q hq hloop =>
          hlast hio hq ?_⟩)
        rintro rfl
        simp [hk, busyLoop] at hloop
  | received _ hlines hio =>
      obtain ⟨q', hio, -⟩ := hio
      exact .inr (.inr ⟨by rw [hlines.1], fun q hq _ => hio ▸ List.mem_cons_of_mem _ hq⟩)
  | raised t' hl hbusy _ hio _ =>
      by_cases ht : t' = t
      · exact .inl (ht ▸ hl)
      · rw [hbusy]
        refine .inr (.inr ⟨Function.update_of_ne (Ne.symm ht) .., fun q hq _ => ?_⟩)
        rw [hio] at hq
        exact List.mem_of_mem_eraseP hq

/-- The process that the interrupt for `t` takes out of `io_list`. -/
theorem TtyStep.takes (h : TtyStep σ σ' l) (hinv : σ.Placed) (hl : l.ack = some t) :
    (∀ q, q ∈ σ.ioList ∧ q ∉ σ'.ioList ↔ q ∈ σ.ioList.find? fun q => σ.Awaits t q) ∧
      (∀ q ∈ σ.ioList.find? fun q => σ.Awaits t q, q ∈ σ'.readyQueue) ∧ σ'.ioList ⊆ σ.ioList := by
  cases h with
  | raised t' hl' _ _ hio hready =>
      obtain rfl := Option.some.inj (hl'.symm.trans hl)
      rw [hio]
      refine ⟨fun q => ?_, hready, List.eraseP_subset⟩
      cases hfind : σ.ioList.find? fun q => σ.Awaits t' q with
      | none =>
          rw [List.eraseP_of_forall_not (by simpa using hfind)]
          simp
      | some p =>
          have hcount := count_eraseP_one hfind q
          have hle := List.nodup_iff_count_le_one.1 (hinv.asleep io_blocked).1 q
          have hmem := List.count_pos_iff (a := q) (l := σ.ioList)
          have hmem' := List.count_pos_iff (a := q)
            (l := σ.ioList.eraseP fun q => σ.Awaits t' q)
          rw [← hmem, ← hmem', Option.mem_some]
          unfold one at hcount
          constructor
          · rintro ⟨h₁, h₂⟩
            by_contra hne
            rw [if_neg (Ne.symm hne)] at hcount
            omega
          · rintro rfl
            rw [if_pos rfl] at hcount
            omega
  | same hack => exact absurd (hack.symm.trans hl) (by simp)
  | reads _ _ hack => exact absurd (hack.symm.trans hl) (by simp)
  | waits _ _ _ hack => exact absurd (hack.symm.trans hl) (by simp)
  | sends _ _ _ hack => exact absurd (hack.symm.trans hl) (by simp)
  | received hack => exact absurd (hack.symm.trans hl) (by simp)

/-- A writer with a chunk left that continues leaves the line busy: it transmits, or it
finds the line busy and waits again. -/
theorem Due.transmits (h : σ.Due q (σ.pcb q).kctxt) (hchunk : σ.HasChunk t q) (hinv : σ.Placed)
    (hs : Steps σ l σ') (ha : σ.Allocates l σ') (hq : σ.activeProc = some q) :
    σ'.busyTerminal t = true := by
  obtain ⟨r, hpos, hk⟩ := hasChunk_iff.1 hchunk
  have hcall := hinv.continuing ha hq hk.ne
  obtain ⟨-, o, τ, hresume, rfl⟩ := h.resume hinv hs hq
  have hloop : ((σ.begin l).restore q).sysTtyWriteResume q t r = some (o, τ) := by
    rcases hk with hk | hk
    · rwa [hk] at hresume
    · rwa [hk] at hresume
  rw [((finish_touches o τ).same .terminals (by simp)).1]
  rcases ttyWriteLoop_cases hcall hloop with ⟨hle, -⟩ |
    ⟨-, -, -, -, -, ⟨hbusy, hlines, -⟩ | ⟨-, hbusy, -⟩⟩
  · omega
  · rw [hlines.1, hbusy]
  · rw [hbusy, Function.update_self]

/-! ## All runs -/

variable {b : Boot} {σ₀ : Kernel}

/-- A process that has been woken and has a chunk left is about to continue. -/
theorem WriterWoken.due (hok : ∀ a ∈ b.procMallocs, a.ok = true) (h₀ : kernelStart b = some σ₀)
    (hr : Run step (fun σ l σ' => σ.Allocates l σ' ∧ σ.IdlePauses l) σ₀ tr σ)
    (h : WriterWoken t q tr) (hchunk : σ.HasChunk t q) : σ.Due q (σ.pcb q).kctxt := by
  induction hr with
  | start => exact absurd h not_since_nil
  | @snoc tr σ σ' l hr hs hc ih =>
      obtain ⟨hinv, hst⟩ := stacked_of_run hok h₀ hr
      have htty := tty_step hinv (writers_of_run hok h₀ hr) (step_cases hs) hc.1 hc.2
      obtain ⟨r, hpos, hk⟩ := hasChunk_iff.1 hchunk
      rcases since_snoc.1 h with ⟨hack, hmem, hout⟩ | ⟨hold, hact⟩
      · obtain ⟨htakes, hready, -⟩ := htty.takes hinv hack
        exact ⟨rfl, .inl (hready q ((htakes q).1 ⟨hmem, hout⟩))⟩
      · have hkctxt : (σ'.pcb q).kctxt = (σ.pcb q).kctxt := by
          rcases (step_suspends (step_cases hs)).kctxt q with he | ⟨he, -⟩ | ⟨he, -⟩
          · exact he
          · exact absurd he hact
          · exact absurd he hk.ne.1
        rw [hkctxt] at hk ⊢
        exact (ih hold (hchunk.keep hkctxt.symm)).step hinv hst (step_cases hs) hc.1 hc.2 hk.ne hact

/-- In every run in which allocations succeed, idle only pauses and the interrupts for
terminal `t` wake usefully, no process waits for terminal `t` to stop being busy unless it
is busy, or a process that the interrupt has woken is active or ready and has still a chunk
to transmit. -/
theorem run_writer_wakes (hok : ∀ a ∈ b.procMallocs, a.ok = true)
    (h₀ : kernelStart b = some σ₀)
    (h : Run step (fun σ l σ' => σ.Allocates l σ' ∧ σ.IdlePauses l) σ₀ tr σ)
    (huse : ∀ tr₁ m tr₂, tr = tr₁ ++ m :: tr₂ → WakesUsefully t tr₁ m.before m.label)
    (hwait : σ.LineAwaited t) : σ.busyTerminal t = true ∨
      ∃ q, WriterWoken t q tr ∧ (σ.activeProc = some q ∨ q ∈ σ.readyQueue) ∧ σ.HasChunk t q := by
  suffices hw : σ.busyTerminal t = true ∨ ∃ q, WriterWoken t q tr ∧ σ.HasChunk t q by
    refine hw.imp_right ?_
    rintro ⟨q, hq, hchunk⟩
    exact ⟨q, hq, (hq.due hok h₀ h hchunk).place.symm.imp_left And.left, hchunk⟩
  induction h with
  | start =>
      obtain ⟨q, -, hloop⟩ := hwait
      simp [(kernelStart_booted h₀).kctxt q, busyLoop] at hloop
  | @snoc tr σ σ' l hr hs hc ih =>
      obtain ⟨hinv, hst⟩ := stacked_of_run hok h₀ hr
      have hsteps := step_cases hs
      have htty := tty_step hinv (writers_of_run hok h₀ hr) hsteps hc.1 hc.2
      have hih := ih fun tr₁ m tr₂ he => huse tr₁ m (tr₂ ++ [⟨σ, l, σ'⟩]) (by rw [he]; simp)
      have hkeeps : ∀ {q}, q ∈ σ.ioList → (σ'.pcb q).kctxt = (σ.pcb q).kctxt := fun hq =>
        (io_keeps hinv hst hsteps hq).2
      -- a process that is on its way stays so, or it transmits
      have hway : ∀ {q}, WriterWoken t q tr → σ.HasChunk t q → σ'.busyTerminal t = true ∨
          ∃ q, WriterWoken t q (tr ++ [⟨σ, l, σ'⟩]) ∧ σ'.HasChunk t q := by
        intro q hq hchunk
        have hdue := hq.due hok h₀ hr hchunk
        by_cases hact : σ.activeProc = some q
        · exact .inl (hdue.transmits hchunk hinv hsteps hc.1 hact)
        · obtain ⟨r, -, hk⟩ := hasChunk_iff.1 hchunk
          exact .inr ⟨q, since_snoc.2 (.inr ⟨hq, hact⟩),
            hchunk.keep (hst.kctxt hsteps hact hk.ne.1)⟩
      obtain ⟨q, hq, hloop⟩ := hwait
      rcases htty.line t with hack | hbusy | ⟨hbusy, hold⟩
      · obtain ⟨htakes, -, hstays⟩ := htty.takes hinv hack
        have hmem := hstays hq
        rcases huse tr ⟨σ, l, σ'⟩ [] rfl hack ⟨q, hmem, hkeeps hmem ▸ hloop⟩ with
          ⟨p, hp, hchunk⟩ | ⟨p, hp, hchunk⟩
        · obtain ⟨hin, hout⟩ := (htakes p).2 hp
          exact .inr ⟨p, since_snoc.2 (.inl ⟨hack, hin, hout⟩), hchunk.keep (hkeeps hin)⟩
        · exact hway hp hchunk
      · exact .inl hbusy
      · have hmem := hold q hq hloop
        rcases hih ⟨q, hmem, hkeeps hmem ▸ hloop⟩ with hb | ⟨p, hp, hchunk⟩
        · exact .inl (hbusy.trans hb)
        · exact hway hp hchunk

/-- The theorem on a run in which init transmits the first of two chunks and its child
waits for the line, until the interrupt wakes init. -/
theorem run_writer_wakes_child : ∃ σ₀ tr σ, kernelStart smallBoot = some σ₀ ∧
    Run step (fun σ l σ' => σ.Allocates l σ' ∧ σ.IdlePauses l) σ₀ tr σ ∧
    σ.LineAwaited 0 ∧ σ.busyTerminal 0 = false ∧
    (σ.busyTerminal 0 = true ∨ ∃ q, WriterWoken 0 q tr ∧
      (σ.activeProc = some q ∨ q ∈ σ.readyQueue) ∧ σ.HasChunk 0 q) := by
  obtain ⟨σ₀, tr, σ, h₀, hr, hwait, hbusy⟩ := bootExec_state (b := smallBoot)
    (C := fun σ l σ' => (σ.Allocates l σ' ∧ σ.IdlePauses l) ∧ (l.ack = some 0 →
      ∃ q ∈ σ.ioList.find? fun q => σ.Awaits 0 q, σ.HasChunk 0 q))
    (t := [smallCall .fork 0 0 0, smallCall .ttyWrite 0 vmem1Base 1025, resumption,
      smallCall .ttyWrite 0 vmem1Base 5, resumption, transmitDone 0])
    (P := fun σ => σ.LineAwaited 0 ∧ σ.busyTerminal 0 = false) (by decide +kernel)
  have hrun := hr.mono fun _ _ _ _ hc => hc.1
  refine ⟨σ₀, tr, σ, h₀, hrun, hwait, hbusy,
    run_writer_wakes (by decide) h₀ hrun (fun tr₁ m tr₂ he hack _ => .inl ?_) hwait⟩
  obtain ⟨-, -, -, -, huse⟩ := hr.reaches_before (m := m) (by simp [he])
  exact huse hack

/-- The interrupt wakes init, which has transmitted its only chunk and returns; the line is
free, its child waits for it, and no process is on its way to transmit. -/
theorem run_writer_strands : ∃ σ₀ tr σ, kernelStart smallBoot = some σ₀ ∧
    Run step (fun σ l σ' => σ.Allocates l σ' ∧ σ.IdlePauses l) σ₀ tr σ ∧ Raised tr ∧
    σ.LineAwaited 0 ∧ σ.busyTerminal 0 = false ∧
    ¬∃ q, WriterWoken 0 q tr ∧ (σ.activeProc = some q ∨ q ∈ σ.readyQueue) ∧ σ.HasChunk 0 q := by
  obtain ⟨σ₀, tr, σ, h₀, hr, hls, hwait, hbusy, hactive, hready, hinit, hidle⟩ :=
    bootExec_trace (b := smallBoot)
    (C := fun σ l σ' => (σ.Allocates l σ' ∧ σ.IdlePauses l) ∧ ∀ t ∈ l.ack, 0 < σ.sent t)
    (t := [smallCall .fork 0 0 0, smallCall .ttyWrite 0 vmem1Base 5, resumption,
      smallCall .ttyWrite 0 vmem1Base 5, resumption, transmitDone 0, clockTick, resumption])
    (P := fun σ => σ.LineAwaited 0 ∧ σ.busyTerminal 0 = false ∧ σ.activeProc = some 0 ∧
      σ.readyQueue = [idle] ∧ ¬σ.HasChunk 0 0 ∧ ¬σ.HasChunk 0 idle) (by decide +kernel)
  refine ⟨σ₀, tr, σ, h₀, hr.mono fun _ _ _ _ hc => hc.1, ?_, hwait, hbusy, ?_⟩
  · refine .of_once (by rw [hls]; decide) fun m hm => ?_
    obtain ⟨-, -, -, -, hpos⟩ := hr.reaches_before hm
    exact hpos
  · rintro ⟨q, -, hplace, hchunk⟩
    rcases hplace with hact | hmem
    · obtain rfl := Option.some.inj (hactive.symm.trans hact)
      exact hinit hchunk
    · rw [hready] at hmem
      obtain rfl := List.mem_singleton.1 hmem
      exact hidle hchunk

end Kernel

end Yalnix
