import Yalnix.Tty.Wait

/-!
# What a reader has asked for

`sys_TtyRead` leaves its arguments in the PCB and reads them again when the process
continues. `Readers` has the invariant that a process which is in TtyRead finds there
what its registers say.
-/

namespace Yalnix

open Transition

namespace Kernel

variable {σ σ' : Kernel} {l : Label} {p q : Pid} {o : Outcome} {t : Int}

/-! ## Whose buffers change -/

/-- The PCB of `q` names the same buffer. -/
def SameBuffer (σ σ' : Kernel) (q : Pid) : Prop :=
  (σ'.pcb q).buf = (σ.pcb q).buf ∧ (σ'.pcb q).len = (σ.pcb q).len

namespace SameBuffer

theorem of_touches {vs : List View} (h : Touches vs σ σ') (hvs : View.buffers ∉ vs) (q : Pid) :
    SameBuffer σ σ' q := h.same .buffers hvs q

theorem trans {τ : Kernel} (h : SameBuffer σ τ q) (h' : SameBuffer τ σ' q) :
    SameBuffer σ σ' q :=
  ⟨h'.1.trans h.1, h'.2.trans h.2⟩

theorem setPcb {x : Pcb} (hq : q ≠ p) : SameBuffer σ (σ.setPcb p x) q := by
  simp [SameBuffer, Kernel.setPcb, hq]

end SameBuffer

theorem sysTtyReadResume_buffer (hq : q ≠ p) (h : σ.sysTtyReadResume p t = some (o, σ')) :
    SameBuffer σ σ' q := by
  unfold sysTtyReadResume at h
  dsimp only at h
  split at h
  · obtain ⟨τ, hτ, h⟩ := Option.map_eq_some_iff.1 h
    obtain ⟨-, rfl⟩ := Prod.mk.inj h
    exact (SameBuffer.setPcb hq).trans (.of_touches (copyOut_touches hτ) (by simp) q)
  · exact absurd h (by simp)

theorem sysTtyRead_buffer (hq : q ≠ p) (h : σ.sysTtyRead p = some (o, σ')) :
    SameBuffer σ σ' q := by
  have hret : ∀ {τ : Kernel} {v : Outcome}, SameBuffer σ τ q → some (v, τ) = some (o, σ') →
      SameBuffer σ σ' q := fun hτ he => (Prod.mk.inj (Option.some.inj he)).2 ▸ hτ
  unfold sysTtyRead at h
  dsimp only at h
  split at h
  · exact hret ⟨rfl, rfl⟩ h
  split at h
  · exact hret ⟨rfl, rfl⟩ h
  split at h
  · exact hret ⟨rfl, rfl⟩ h
  split at h
  · exact hret ⟨rfl, rfl⟩ h
  have hio := (SameBuffer.setPcb (σ := σ) (x := { σ.pcb p with
    ttyId := (σ.reg 0).toInt, buf := σ.reg 1, len := (σ.reg 2).toInt, state := .blockedR })
    hq).trans (.of_touches (ioInsert_touches _ p) (by simp) q)
  split at h
  · exact hret hio h
  · rcases block_cases h with ht | ⟨τ, ht, hresume⟩
    · exact hio.trans (.of_touches ht (by simp) q)
    · exact (hio.trans (.of_touches ht (by simp) q)).trans (sysTtyReadResume_buffer hq hresume)

theorem sysFork_buffer (hq : q ≠ σ.nextPid) (h : σ.sysFork p = some (o, σ')) :
    SameBuffer σ σ' q := by
  unfold sysFork at h
  dsimp only at h
  have hchild : SameBuffer σ (σ.malloc.2.createChild p σ.malloc.1).malloc.2 q := by
    simp [SameBuffer, malloc, createChild, hq]
  split at h
  swap
  · obtain ⟨-, rfl⟩ := Prod.mk.inj (Option.some.inj h)
    exact ⟨rfl, rfl⟩
  split at h
  · exact absurd h (by simp)
  split at h
  swap
  · obtain ⟨-, rfl⟩ := Prod.mk.inj (Option.some.inj h)
    exact hchild
  obtain ⟨τ, hτ, h⟩ := Option.map_eq_some_iff.1 h
  have hinit : SameBuffer σ τ q := (hchild.trans (.setPcb hq)).trans
    (.of_touches (initProcKernel_touches_frames hτ) (by simp) q)
  have hcopy := hinit.trans (.of_touches (copySpace_touches τ p σ.nextPid) (by simp) q)
  split at h
  · obtain ⟨-, rfl⟩ := Prod.mk.inj h
    exact hcopy.trans (.of_touches (readyInsert_touches _ _) (by simp) q)
  · obtain ⟨-, rfl⟩ := Prod.mk.inj h
    exact hcopy

/-- A step leaves the buffer alone that a process which does not run has asked for. -/
theorem step_buffer (h : Steps σ l σ') (hact : σ.activeProc ≠ some q) (hnew : q ≠ σ.nextPid) :
    SameBuffer σ σ' q := by
  have hne : ∀ {p}, σ.activeProc = some p → q ≠ p := by
    rintro p hp rfl
    exact hact hp
  have henter : ∀ u, SameBuffer σ ((σ.begin l).enter u) q := fun u =>
    .of_touches (enter_touches σ l u) (by simp) q
  have hfin : ∀ o τ, SameBuffer τ (finish (o, τ)) q := fun o τ =>
    .of_touches (finish_touches o τ) (by simp) q
  cases h with
  | store hl hu h =>
      exact .of_touches ((begin_touches σ l).seq (copyOut_touches h)) (by simp) q
  | @call u p c o τ hl hu hv hp hc h =>
      refine ((henter u).trans ?_).trans (hfin o τ)
      cases c with
      | fork => exact sysFork_buffer hnew h
      | ttyRead => exact sysTtyRead_buffer (hne hp) h
      | _ => exact .of_touches (sysCall_touches h) (by simp [callViews]) q
  | @clock u τ hl hu hv h =>
      exact (henter u).trans (.of_touches (trapClockHdl_touches h) (by simp) q)
  | @abort u p o τ hl hu hv hp h =>
      exact ((henter u).trans (.of_touches (sysExit_touches h) (by simp) q)).trans (hfin o τ)
  | @grow u p τ hl hu hv hp hfit h =>
      exact (henter u).trans (.of_touches ((growUserStack_touches h).seq
        (returnUser_touches τ)) (by simp) q)
  | @receive u τ hl hu hv h =>
      exact (henter u).trans (.of_touches ((trapTtyReceiveHdl_touches h).seq
        (returnUser_touches τ)) (by simp) q)
  | @transmit u τ hl hu hv h =>
      exact (henter u).trans (.of_touches ((trapTtyTransmitHdl_touches h).seq
        (returnUser_touches τ)) (by simp) q)
  | @disk u hl hu hv => exact henter u
  | @resume p o τ hl hu hp h =>
      refine (SameBuffer.of_touches (restore_touches σ l p) (by simp) q).trans
        (SameBuffer.trans ?_ (hfin o τ))
      cases hk : (σ.pcb p).kctxt with
      | ttyRead t =>
          rw [hk] at h
          exact sysTtyReadResume_buffer (hne hp) h
      | _ => exact .of_touches (resumeCall_touches h) (by simp [hk, resumeViews]) q

/-! ## The arguments of a TtyRead -/

/-- A TtyRead from terminal `t` that was called with the registers `u` has left its
arguments in the PCB. -/
structure Asked (x : Pcb) (t : Int) (u : UserContext) : Prop where
  terminal : (u.regs 0).toInt = t
  buf : x.buf = u.regs 1
  len : x.len = (u.regs 2).toInt
  legal : 0 ≤ t ∧ t ≤ numTerminals ∧ 0 ≤ (u.regs 2).toInt

/-- A TtyRead that has put its process to sleep. -/
theorem sysTtyRead_blocks (hcall : σ.Calling p) (h : σ.sysTtyRead p = some (.switched, σ')) :
    (σ'.pcb p).kctxt = .ttyRead (σ.reg 0).toInt ∧
      Asked (σ'.pcb p) (σ.reg 0).toInt σ.uContext ∧ (σ'.pcb p).state = .blockedR ∧
        (σ'.pcb p).ttyId = (σ.reg 0).toInt ∧ σ'.ioList = σ.ioList ++ [p] := by
  unfold sysTtyRead at h
  dsimp only at h
  split at h
  · simp at h
  rename_i htty
  split at h
  · simp at h
  rename_i hlen
  split at h
  · simp at h
  split at h
  · simp at h
  have hset : Requeues 0 σ (σ.setPcb p { σ.pcb p with
      ttyId := (σ.reg 0).toInt, buf := σ.reg 1, len := (σ.reg 2).toInt, state := .blockedR }) :=
    .of_touches (setPcb_touches_buffers (by rfl) (by rfl)) (by simp) (by simp) hcall.ok
  split at h
  · simp at h
  obtain ⟨-, ht, hk⟩ := (hcall.requeued (hset.congr (add_zero 0))).sleeps (.ioInsert hset.ok p) h
  rw [ioInsert_ok hset.ok] at ht
  obtain ⟨hbuf, hl⟩ := ht.same .buffers (by simp) p
  obtain ⟨hstate, htty'⟩ := ht.same .states (by simp) p
  have hio := (ht.same .terminals (by simp)).2.2
  rw [not_or, not_lt, not_lt] at htty
  refine ⟨hk, ⟨rfl, ?_, ?_, htty.1, htty.2, not_lt.1 hlen⟩, ?_, ?_, hio⟩
  · rw [hbuf]
    simp [setPcb, reg]
  · rw [hl]
    simp [setPcb, reg]
  · rw [hstate]
    simp [setPcb]
  · rw [htty']
    simp [setPcb]

/-- A process that is in TtyRead and not in user code has its arguments in its PCB, and
while it is in `io_list` it is marked as a reader of its terminal. It has left `io_list` only if
`receive` has an entry for the terminal. -/
structure Readers (σ : Kernel) : Prop where
  asked : ∀ q ∈ σ.live, ¬σ.inUser q → ∀ t, (σ.pcb q).kctxt = .ttyRead t →
    Asked (σ.pcb q) t (σ.pcb q).uctxt
  waits : ∀ q ∈ σ.ioList, ∀ t, (σ.pcb q).kctxt = .ttyRead t →
    (σ.pcb q).state = .blockedR ∧ (σ.pcb q).ttyId = t
  woken : ∀ q ∈ σ.live, ¬σ.inUser q → q ∉ σ.ioList → ∀ t, (σ.pcb q).kctxt = .ttyRead t →
    isTerminal t = true

/-- The step that leaves its process in TtyRead has called it. -/
theorem leftAt_ttyRead (h : σ.leftAt l p (.ttyRead t)) : l.call = some .ttyRead := by
  rcases h with ⟨c, hc, hplace⟩ | ⟨-, hplace⟩ | ⟨-, hplace⟩
  · cases c with
    | ttyRead => exact hc
    | _ => simp [blockPlaces] at hplace
  · exact absurd hplace (by simp)
  · cases hk : (σ.pcb p).kctxt <;> simp [hk, blocksAgain] at hplace

theorem Asked.same {x y : Pcb} {u : UserContext} (h : Asked x t u) (hb : y.buf = x.buf)
    (hl : y.len = x.len) : Asked y t u :=
  ⟨h.terminal, hb.trans h.buf, hl.trans h.len, h.legal⟩

/-- The step in which a process has gone to sleep in TtyRead. -/
theorem reader_sleeps (hinv : σ.Placed) (hs : Steps σ l σ') (ha : σ.Allocates l σ')
    (hi : σ.IdlePauses l) (hp : σ.activeProc = some p) (hu : ¬σ'.inUser p)
    (hleft : σ.leftAt l p (.ttyRead t)) (hk : (σ'.pcb p).kctxt = .ttyRead t) :
    Asked (σ'.pcb p) t (σ.callState l).uContext ∧ (σ'.pcb p).state = .blockedR ∧
      (σ'.pcb p).ttyId = t ∧ p ∈ σ'.ioList := by
  obtain ⟨u, hl, hv, hcall⟩ := hs.blocked_call (leftAt_ttyRead hleft) (by simp) hp hu
  have hc := hinv.calling (enter_touches σ l u) ha.begin hp (hi.ne hl hp (by simp [hv]))
  obtain ⟨hk', hasked, hstate, htty, hio⟩ := sysTtyRead_blocks hc hcall
  obtain rfl := KernelContext.ttyRead.inj (hk.symm.trans hk')
  refine ⟨?_, hstate, htty, hio ▸ List.mem_append_right _ (List.mem_singleton_self p)⟩
  simpa only [callState, hl, hp] using hasked

/-- The process that a step has put into `io_list` was running. -/
theorem TtyStep.joins (h : TtyStep σ σ' l) (hq : q ∈ σ'.ioList) :
    q ∈ σ.ioList ∨ σ.activeProc = some q := by
  have hnew : ∀ {p}, σ.activeProc = some p → σ'.ioList = σ.ioList ++ [p] →
      q ∈ σ.ioList ∨ σ.activeProc = some q := by
    intro p hp hio
    rw [hio] at hq
    rcases List.mem_append.1 hq with hq | hq
    · exact .inl hq
    · obtain rfl := List.mem_singleton.1 hq
      exact .inr hp
  cases h with
  | same _ _ hio => exact .inl (hio ▸ hq)
  | reads p t _ _ hp hio => exact hnew hp hio
  | waits p t r _ _ hp hio => exact hnew hp hio
  | sends p t r _ hp hio => exact hnew hp hio
  | received _ _ hio =>
      obtain ⟨q', hio, -⟩ := hio
      exact .inl (hio ▸ List.mem_cons_of_mem _ hq)
  | raised t _ _ _ hio =>
      rw [hio] at hq
      exact .inl (List.mem_of_mem_eraseP hq)

/-- A reader leaves `io_list` only for an interrupt of its terminal. -/
theorem TtyStep.leaves (h : TtyStep σ σ' l) (hr : σ.Readers) (hq : q ∈ σ.ioList)
    (hk : (σ.pcb q).kctxt = .ttyRead t) (hgone : q ∉ σ'.ioList) : isTerminal t = true := by
  obtain ⟨hstate, htty⟩ := hr.waits q hq t hk
  cases h with
  | same _ _ hio => exact absurd (hio ▸ hq) hgone
  | reads p t _ _ _ hio => exact absurd (hio ▸ List.mem_append_left _ hq) hgone
  | waits p t r _ _ _ hio => exact absurd (hio ▸ List.mem_append_left _ hq) hgone
  | sends p t r _ _ hio => exact absurd (hio ▸ List.mem_append_left _ hq) hgone
  | received _ _ hio =>
      obtain ⟨q', hio, -, hterm⟩ := hio
      rw [hio] at hq
      rcases List.mem_cons.1 hq with rfl | hq
      · rwa [htty] at hterm
      · exact absurd hq hgone
  | raised t' _ _ _ hio =>
      have hstays : q ∈ σ.ioList.eraseP fun q => decide (σ.Awaits t' q) :=
        (List.mem_eraseP_of_neg (by simp [Awaits, hstate])).2 hq
      exact absurd (hio ▸ hstays) hgone

theorem Readers.step (h : σ.Readers) (hw : σ.Writers) (hinv : σ.Placed) (hst : σ.Stacked)
    (hs : Steps σ l σ') (ha : σ.Allocates l σ') (hi : σ.IdlePauses l) : σ'.Readers := by
  constructor
  · intro q hq hu t hk
    rcases hst.left hinv hs ha hi hq hu (by simp [hk]) with
      ⟨hact, hleft, husers⟩ | ⟨hact, hlive, hkctxt, husers⟩
    · rw [hk] at hleft
      rw [husers]
      exact (reader_sleeps hinv hs ha hi hact hu hleft hk).1
    · obtain ⟨hb, hl⟩ := step_buffer hs hact (hinv.bound q hlive).2.ne
      rw [husers]
      exact (h.asked q hlive (fun hin => hact hin.1) t (hkctxt ▸ hk)).same hb hl
  · intro q hq t hk
    rcases (tty_step hinv hw hs ha hi).joins hq with hold | hact
    · obtain ⟨hstate, hkctxt⟩ := io_keeps hinv hst hs hold
      obtain ⟨hb, ht⟩ := h.waits q hold t (hkctxt ▸ hk)
      exact ⟨hstate.1.trans hb, hstate.2.trans ht⟩
    · obtain ⟨hlive, hact', -⟩ := (hinv.step hs ha hi).io_waiter hq
      have hu : ¬σ'.inUser q := fun hin => hact' hin.1
      rcases hst.left hinv hs ha hi hlive hu (by simp [hk]) with ⟨-, hleft, -⟩ | ⟨hne, -⟩
      · rw [hk] at hleft
        obtain ⟨-, hstate, htty, -⟩ := reader_sleeps hinv hs ha hi hact hu hleft hk
        exact ⟨hstate, htty⟩
      · exact absurd hact hne
  · intro q hq hu hgone t hk
    rcases hst.left hinv hs ha hi hq hu (by simp [hk]) with
      ⟨hact, hleft, -⟩ | ⟨hact, hlive, hkctxt, -⟩
    · rw [hk] at hleft
      exact absurd (reader_sleeps hinv hs ha hi hact hu hleft hk).2.2.2 hgone
    · rw [hkctxt] at hk
      by_cases hold : q ∈ σ.ioList
      · exact (tty_step hinv hw hs ha hi).leaves h hold hk hgone
      · exact h.woken q hlive (fun hin => hact hin.1) hold t hk

variable {b : Boot} {σ₀ : Kernel} {tr : List (Move Kernel Label)}

theorem readers_of_run (hok : ∀ a ∈ b.procMallocs, a.ok = true) (h₀ : kernelStart b = some σ₀)
    (h : Run Kernel.step (fun σ l σ' => σ.Allocates l σ' ∧ σ.IdlePauses l) σ₀ tr σ) :
    σ.Readers := by
  induction h with
  | start =>
      have hboot := kernelStart_booted h₀
      constructor
      · intro q _ _ t hk
        exact absurd ((hboot.kctxt q).symm.trans hk) (by simp)
      · intro q _ t hk
        exact absurd ((hboot.kctxt q).symm.trans hk) (by simp)
      · intro q _ _ _ t hk
        exact absurd ((hboot.kctxt q).symm.trans hk) (by simp)
  | snoc hr hs hc ih =>
      obtain ⟨hinv, hst⟩ := stacked_of_run hok h₀ hr
      exact ih.step (writers_of_run hok h₀ hr) hinv hst (step_cases hs) hc.1 hc.2

/-! ## What the calls do with their arguments -/

/-- A write goes where the page table in use sends it. -/
theorem writeBytes_congr (hp : σ'.ptbr1 = σ.ptbr1) (hs : σ'.space = σ.space) (a : Word)
    (bs : List Byte) (phys : ℕ → ℕ → Byte) : σ'.writeBytes a bs phys = σ.writeBytes a bs phys := by
  have htranslate : ∀ a, σ'.translate protWrite a = σ.translate protWrite a := by
    intro a
    rw [translate, translate, hp, hs]
  induction bs generalizing a phys with
  | nil => rfl
  | cons b bs ih =>
      rw [writeBytes, writeBytes, htranslate]
      congr 1
      funext x
      exact ih _ _

/-- What a TtyRead does when it continues. -/
theorem sysTtyReadResume_ends (hask : Asked (σ.pcb p) t σ.uContext)
    (h : σ.sysTtyReadResume p t = some (o, σ')) : o = .ret σ.stringLen ∧
      σ.writeBytes (σ.reg 1) ((List.range σ.stringLen).map (σ.receive t)) σ.phys =
        some σ'.phys := by
  unfold sysTtyReadResume at h
  dsimp only at h
  split at h
  · obtain ⟨τ, hτ, h⟩ := Option.map_eq_some_iff.1 h
    obtain ⟨rfl, rfl⟩ := Prod.mk.inj h
    obtain ⟨phys, hphys, rfl⟩ := Option.map_eq_some_iff.1 hτ
    have hbuf : ((σ.setPcb p { σ.pcb p with len := σ.stringLen }).pcb p).buf = σ.reg 1 := by
      simp only [setPcb, Function.update_self]
      exact hask.buf
    rw [hbuf, writeBytes_congr (show (σ.setPcb p _).ptbr1 = σ.ptbr1 from rfl) rfl] at hphys
    exact ⟨by simp [setPcb], hphys⟩
  · exact absurd h (by simp)

/-- The terminals that the checks of TtyRead and TtyWrite let pass. -/
theorem isTerminal_iff (h₀ : 0 ≤ t) (h : t ≤ numTerminals) :
    isTerminal t = true ↔ t ≠ numTerminals := by
  simp only [isTerminal, Bool.and_eq_true, decide_eq_true_eq]
  omega

theorem sysTtyRead_passes (h : σ.sysTtyRead p ≠ some (.ret error, σ)) :
    0 ≤ (σ.reg 0).toInt ∧ (σ.reg 0).toInt ≤ numTerminals := by
  unfold sysTtyRead at h
  dsimp only at h
  split at h
  · exact absurd rfl h
  · omega

theorem sysTtyWrite_passes (h : σ.sysTtyWrite p ≠ some (.ret error, σ)) :
    0 ≤ (σ.reg 0).toInt ∧ (σ.reg 0).toInt ≤ numTerminals ∧ 0 ≤ (σ.reg 2).toInt := by
  unfold sysTtyWrite at h
  dsimp only at h
  split at h
  · exact absurd rfl h
  split at h
  · exact absurd rfl h
  · omega

end Kernel

end Yalnix
