import Yalnix.Runs

/-!
# Transmissions and their acknowledgements

A terminal is busy from the `TtyTransmit` of a chunk to the interrupt that acknowledges
it. `LineStep` has the three things that a step can do to the line of a terminal. None of
this depends on allocations: a call that gives up leaves the line busy.
-/

namespace Yalnix

open Transition

/-- The terminal whose transmit interrupt is raised. -/
def Label.ack (l : Label) : Option Int :=
  match l.event with
  | .trap u => if u.vector = 6 then some u.code.toInt else none
  | _ => none

namespace Kernel

variable {σ σ' : Kernel} {l : Label} {p : Pid} {o : Outcome} {t : Int}

/-- How many chunks have been transmitted on terminal `t`. -/
def sent (σ : Kernel) (t : Int) : ℕ := σ.transmitted.countP fun x => x.1 = t

/-- How often the transmit interrupt of terminal `t` has been raised. -/
def acks (t : Int) (tr : List (Move Kernel Label)) : ℕ :=
  tr.countP fun m => m.label.ack = some t

/-- The hardware raises at most one interrupt for each transmission, and after it. -/
def Raised (tr : List (Move Kernel Label)) : Prop :=
  ∀ tr₁ m tr₂ t, tr = tr₁ ++ m :: tr₂ → m.label.ack = some t → acks t tr₁ < m.before.sent t

theorem acks_snoc (t : Int) (tr : List (Move Kernel Label)) (m : Move Kernel Label) :
    acks t (tr ++ [m]) = acks t tr + if m.label.ack = some t then 1 else 0 := by
  simp [acks, List.countP_append, List.countP_singleton]

theorem Raised.init {tr : List (Move Kernel Label)} {m : Move Kernel Label}
    (h : Raised (tr ++ [m])) : Raised tr := fun tr₁ m₁ tr₂ t he =>
  h tr₁ m₁ (tr₂ ++ [m]) t (by rw [he]; simp)

theorem Raised.upTo {tr tr₁ tr₂ : List (Move Kernel Label)} {m : Move Kernel Label}
    (h : Raised tr) (htr : tr = tr₁ ++ m :: tr₂) : Raised tr₁ := fun tr₃ m₁ tr₄ t he =>
  h tr₃ m₁ (tr₄ ++ m :: tr₂) t (by simp [htr, he])

theorem Raised.last {tr : List (Move Kernel Label)} {m : Move Kernel Label}
    (h : Raised (tr ++ [m])) (hm : m.label.ack = some t) : acks t tr < m.before.sent t :=
  h tr m [] t rfl hm

/-- The only interrupt of a run follows a transmission. -/
theorem Raised.of_once {tr : List (Move Kernel Label)}
    (hone : ((tr.map Move.label).filterMap Label.ack).length ≤ 1)
    (hpos : ∀ m ∈ tr, ∀ t ∈ m.label.ack, 0 < m.before.sent t) : Raised tr := by
  rintro tr₁ m tr₂ t rfl hm
  have hle : acks t tr₁ ≤ tr₁.countP fun m => m.label.ack.isSome :=
    List.countP_mono_left fun m' _ hm' => by simp [of_decide_eq_true hm']
  have hzero : (tr₁.countP fun m => m.label.ack.isSome) = 0 := by
    simp only [List.filterMap_map, List.length_filterMap_eq_countP, List.countP_append,
      List.countP_cons, Function.comp_apply, hm, Option.isSome_some, if_true] at hone
    omega
  have hsent := hpos m (by simp) t hm
  omega

/-- What a step can do to the line of terminal `t`. -/
inductive LineStep (σ σ' : Kernel) (l : Label) (t : Int) : Prop
  | same (hl : l.ack ≠ some t) (hbusy : σ'.busyTerminal t = σ.busyTerminal t)
      (hsent : σ'.sent t = σ.sent t)
  | sends (hl : l.ack ≠ some t) (hidle : σ.busyTerminal t = false)
      (hbusy : σ'.busyTerminal t = true) (hsent : σ'.sent t = σ.sent t + 1)
  | acked (hl : l.ack = some t) (hbusy : σ'.busyTerminal t = false)
      (hsent : σ'.sent t = σ.sent t)

/-! ## Calls -/

/-- The lines of all terminals are as before. -/
def SameLines (σ σ' : Kernel) : Prop :=
  σ'.busyTerminal = σ.busyTerminal ∧ σ'.transmitted = σ.transmitted

theorem SameLines.of_touches {vs : List View} (h : Touches vs σ σ')
    (hvs : View.terminals ∉ vs) : SameLines σ σ' :=
  ⟨(h.same .terminals hvs).1, (h.same .terminals hvs).2.1⟩

theorem SameLines.sent (h : SameLines σ σ') (t : Int) : σ'.sent t = σ.sent t := by
  rw [Kernel.sent, Kernel.sent, h.2]

theorem SameLines.lineStep (h : SameLines σ σ') (hl : l.ack ≠ some t) : LineStep σ σ' l t :=
  .same hl (by rw [h.1]) (h.sent t)

theorem sysTtyRead_sameLines (h : σ.sysTtyRead p = some (o, σ')) : SameLines σ σ' := by
  have hret : ∀ {τ : Kernel} {v : Outcome}, SameLines σ τ → some (v, τ) = some (o, σ') →
      SameLines σ σ' := fun hτ he => (Prod.mk.inj (Option.some.inj he)).2 ▸ hτ
  unfold sysTtyRead at h
  dsimp only at h
  split at h
  · exact hret ⟨rfl, rfl⟩ h
  split at h
  · exact hret ⟨rfl, rfl⟩ h
  split at h
  · exact hret ⟨rfl, rfl⟩ h
  split at h
  · exact hret ⟨rfl, rfl⟩ h
  split at h
  · exact hret (by exact ⟨rfl, rfl⟩) h
  · have ht := block_touches (v := [.queues, .contexts, .users, .buffers, .memory]) (by simp)
      (fun _ _ _ _ h => (sysTtyReadResume_touches h).mono (by simp)) h
    have hend := SameLines.of_touches ht (by simp)
    exact ⟨hend.1, hend.2⟩

/-- What comes before a step of the line and leaves it as it is. -/
theorem LineStep.after {τ : Kernel} (hbusy : τ.busyTerminal t = σ.busyTerminal t)
    (hsent : τ.sent t = σ.sent t) (h : LineStep τ σ' l t) : LineStep σ σ' l t := by
  cases h with
  | same hl hb hs => exact .same hl (hb.trans hbusy) (hs.trans hsent)
  | sends hl hi hb hs => exact .sends hl (hbusy.symm.trans hi) hb (hsent ▸ hs)
  | acked hl hb hs => exact .acked hl hb (hs.trans hsent)

theorem LineStep.around {σ₁ τ : Kernel} (hb : SameLines σ σ₁) (h : LineStep σ₁ τ l t)
    (ha : SameLines τ σ') : LineStep σ σ' l t := by
  refine .after (by rw [hb.1]) (hb.sent t) ?_
  cases h with
  | same hl hbusy hs => exact .same hl (by rw [ha.1, hbusy]) ((ha.sent t).trans hs)
  | sends hl hi hbusy hs => exact .sends hl hi (by rw [ha.1, hbusy]) ((ha.sent t).trans hs)
  | acked hl hbusy hs => exact .acked hl (by rw [ha.1, hbusy]) ((ha.sent t).trans hs)

/-- A writer that has sent a chunk does not send another one before the interrupt. -/
theorem LineStep.after_transmit {τ : Kernel} (hl : l.ack = none)
    (hidle : σ.busyTerminal t = false) (hbusy : τ.busyTerminal t = true)
    (hsent : τ.sent t = σ.sent t + 1) (h : LineStep τ σ' l t) : LineStep σ σ' l t := by
  have hne : l.ack ≠ some t := by simp [hl]
  cases h with
  | same _ hb hs => exact .sends hne hidle (hb.trans hbusy) (hs.trans hsent)
  | sends _ hi => exact absurd (hbusy.symm.trans hi) (by simp)
  | acked hack => exact absurd hack hne

/-- A writer sends on its own terminal only, and only when that terminal is not busy. -/
theorem ttyWriteLoop_line {n : ℕ} {ttyId remainBytes : Int} (hl : l.ack = none)
    (h : ttyWriteLoop n σ p ttyId remainBytes = some (o, σ')) : LineStep σ σ' l t := by
  have hret : ∀ {τ : Kernel} {v : Outcome}, some (v, τ) = some (o, σ') → τ = σ' :=
    fun he => (Prod.mk.inj (Option.some.inj he)).2
  induction n generalizing σ remainBytes with
  | zero => exact absurd h (by simp [ttyWriteLoop])
  | succ n ih =>
      -- the rest of the loop, from the state in which the writer has been put to sleep
      have hrest : ∀ {τ : Kernel} {k : KernelContext} {r : Int},
          τ.block k (fun σ => ttyWriteLoop n σ p ttyId r) = some (o, σ') → LineStep τ σ' l t := by
        intro τ k r hτ
        rcases block_cases hτ with ht | ⟨τ', ht, hτ⟩
        · exact (SameLines.of_touches ht (by simp)).lineStep (by simp [hl])
        · have hsame := SameLines.of_touches ht (by simp)
          exact .after (by rw [hsame.1]) (hsame.sent t) (ih hτ)
      unfold ttyWriteLoop at h
      dsimp only at h
      split at h
      · exact hret h ▸ .same (by simp [hl]) rfl rfl
      split at h
      swap
      · exact absurd h (by simp)
      split at h
      · have hw : LineStep (σ.blockWriter p).2 σ' l t := by
          split at h
          · exact hret h ▸ .same (by simp [hl]) rfl rfl
          · exact hrest h
        exact .after (by rfl) (by rfl) hw
      · rename_i hidle
        obtain ⟨bytes, -, h⟩ := Option.bind_eq_some_iff.1 h
        have hw : LineStep ((σ.ttyTransmit ttyId bytes).blockWriter p).2 σ' l t := by
          split at h
          · exact hret h ▸ .same (by simp [hl]) rfl rfl
          · exact hrest h
        by_cases ht : ttyId = t
        · subst ht
          refine .after_transmit hl (by simpa using hidle) ?_ ?_ hw
          · simp [blockWriter, ioInsert, setPcb, ttyTransmit]
          · simp [blockWriter, ioInsert, setPcb, ttyTransmit, sent]
        · refine .after ?_ ?_ hw
          · simp [blockWriter, ioInsert, setPcb, ttyTransmit, Ne.symm ht]
          · simp [blockWriter, ioInsert, setPcb, ttyTransmit, sent, ht]

theorem sysTtyWrite_line (hl : l.ack = none) (h : σ.sysTtyWrite p = some (o, σ')) :
    LineStep σ σ' l t := by
  have hret : ∀ {v : Outcome}, some (v, σ) = some (o, σ') → LineStep σ σ' l t :=
    fun he => (Prod.mk.inj (Option.some.inj he)).2 ▸ .same (by simp [hl]) rfl rfl
  unfold sysTtyWrite at h
  dsimp only at h
  split at h
  · exact hret h
  split at h
  · exact hret h
  split at h
  · exact hret h
  split at h
  · exact hret h
  · exact ttyWriteLoop_line hl h

theorem trapTtyReceiveHdl_sameLines (h : σ.trapTtyReceiveHdl = some σ') : SameLines σ σ' := by
  unfold trapTtyReceiveHdl at h
  dsimp only at h
  split at h
  · split at h
    · exact Option.some.inj h ▸ ⟨rfl, rfl⟩
    · split at h
      · exact Option.some.inj h ▸ ⟨rfl, rfl⟩
      · exact absurd h (by simp)
  · exact absurd h (by simp)

theorem trapTtyTransmitHdl_line (h : σ.trapTtyTransmitHdl = some σ') :
    σ'.busyTerminal = Function.update σ.busyTerminal σ.uContext.code.toInt false ∧
      σ'.transmitted = σ.transmitted := by
  unfold trapTtyTransmitHdl at h
  dsimp only at h
  split at h
  · split at h
    · exact Option.some.inj h ▸ ⟨rfl, rfl⟩
    · exact Option.some.inj h ▸ ⟨rfl, rfl⟩
  · exact absurd h (by simp)

/-! ## A whole step -/

theorem line_step (h : Steps σ l σ') (t : Int) : LineStep σ σ' l t := by
  have henter : ∀ u, SameLines σ ((σ.begin l).enter u) := fun u =>
    .of_touches (enter_touches σ l u) (by simp)
  have hfinish : ∀ o τ, SameLines τ (finish (o, τ)) := fun o τ =>
    .of_touches (finish_touches o τ) (by simp)
  have hquiet : ∀ {vs : List View}, Touches vs σ σ' → View.terminals ∉ vs → l.ack = none →
      LineStep σ σ' l t := fun ht hvs hl =>
    (SameLines.of_touches ht hvs).lineStep (by simp [hl])
  cases h with
  | store hl hu h =>
      exact hquiet ((begin_touches σ l).seq (copyOut_touches h)) (by simp) (by simp [Label.ack, hl])
  | @call u p c o τ hl hu hv hp hc h =>
      have hack : l.ack = none := by simp [Label.ack, hl, hv]
      cases c with
      | ttyRead =>
          exact .around (henter u) ((sysTtyRead_sameLines h).lineStep (by simp [hack]))
            (hfinish o τ)
      | ttyWrite => exact .around (henter u) (sysTtyWrite_line hack h) (hfinish o τ)
      | _ => exact hquiet (call_touches (enter_touches σ l u) (sysCall_touches h) o)
              (by simp [callViews]) hack
  | @clock u τ hl hu hv h =>
      exact hquiet ((enter_touches σ l u).seq (trapClockHdl_touches h)) (by simp)
        (by simp [Label.ack, hl, hv])
  | @abort u p o τ hl hu hv hp h =>
      refine hquiet (call_touches (enter_touches σ l u) (sysExit_touches h) o) (by simp) ?_
      rw [Label.ack, hl]
      exact if_neg fun hsix => hv (by simp [hsix])
  | @grow u p τ hl hu hv hp hfit h =>
      exact hquiet ((enter_touches σ l u).seq
        ((growUserStack_touches h).seq (returnUser_touches τ))) (by simp)
        (by simp [Label.ack, hl, hv])
  | @receive u τ hl hu hv h =>
      exact .around (henter u) ((trapTtyReceiveHdl_sameLines h).lineStep (by
        simp [Label.ack, hl, hv])) (.of_touches (returnUser_touches τ) (by simp))
  | @transmit u τ hl hu hv h =>
      obtain ⟨hbusy, hsent⟩ := trapTtyTransmitHdl_line h
      have hack : l.ack = some u.code.toInt := by simp [Label.ack, hl, hv]
      have hcount : τ.returnUser.sent t = σ.sent t := by
        unfold sent
        rw [show τ.returnUser.transmitted = σ.transmitted from hsent]
      by_cases ht : u.code.toInt = t
      · subst ht
        refine .acked hack ?_ hcount
        change τ.busyTerminal _ = false
        rw [hbusy]
        exact Function.update_self ..
      · refine .same (by simpa [hack] using ht) ?_ hcount
        change τ.busyTerminal t = _
        rw [hbusy]
        exact Function.update_of_ne (Ne.symm ht) ..
  | disk hl hu hv =>
      exact hquiet ((enter_touches σ l _).seq (returnUser_touches _)) (by simp)
        (by simp [Label.ack, hl, hv])
  | @resume p o τ hl hu hp h =>
      have hack : l.ack = none := by simp [Label.ack, hl]
      have hrestore : SameLines σ ((σ.begin l).restore p) :=
        .of_touches (restore_touches σ l p) (by simp)
      cases hk : (σ.pcb p).kctxt with
      | ttyBusy t' r =>
          rw [hk] at h
          exact .around hrestore (ttyWriteLoop_line hack h) (hfinish o τ)
      | ttySent t' r =>
          rw [hk] at h
          exact .around hrestore (ttyWriteLoop_line hack h) (hfinish o τ)
      | _ =>
          exact hquiet (call_touches (restore_touches σ l p) (resumeCall_touches h) o)
            (by simp [hk, resumeViews]) hack

/-! ## All runs -/

variable {b : Boot} {σ₀ : Kernel} {tr : List (Move Kernel Label)}

/-- The chunks that have been sent are those that have been acknowledged, and one more
while the terminal is busy. -/
theorem sent_of_run (h₀ : kernelStart b = some σ₀)
    (h : Run step (fun _ _ _ => True) σ₀ tr σ) (hraised : Raised tr) (t : Int) :
    σ.sent t = acks t tr + if σ.busyTerminal t then 1 else 0 := by
  induction h with
  | start =>
      have hboot := kernelStart_booted h₀
      simp [sent, acks, hboot.transmitted, hboot.idleLines]
  | @snoc tr σ σ' l hr hs hc ih =>
      have hsent := ih hraised.init
      rw [acks_snoc]
      cases line_step (step_cases hs) t with
      | same hl hb hs => rw [hs, hsent, hb, if_neg hl, add_zero]
      | sends hl hi hb hs =>
          rw [hs, hsent, hb, if_neg hl, hi]
          rfl
      | acked hl hb hs =>
          have hlt := hraised.last hl
          rw [hs, hb, if_pos hl]
          rw [hsent] at hlt ⊢
          split at hlt
          · rw [if_pos ‹_›]
            rfl
          · omega

end Kernel

end Yalnix
