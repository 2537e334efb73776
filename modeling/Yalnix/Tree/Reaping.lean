import Mathlib.Data.List.InsertIdx
import Mathlib.Data.List.Perm.Basic
import Yalnix.Tree.Status
import Yalnix.Tree.Wait

/-!
# Children are reaped once

`DeadStep` says what a step can do to `dead_list` and to the pids in use, whether
allocations succeed or not. The position counter of a Wait that has blocked is
not set back, so such a Wait frees a record and takes another one, or none, out
of the list; as long as that does not happen, `Ledger` keeps every child in one
place: alive, in a record, or reaped.
-/

namespace Yalnix

open Transition

namespace Kernel

/-! ## Waits in a run -/

/-- The pointer argument of the Wait that the step makes or continues. -/
def waitPtr (σ : Kernel) (l : Label) : Option Word :=
  σ.activeProc.bind fun p =>
    match l.event with
    | .trap u => if l.call = some .wait then some (u.regs 0) else none
    | .resume =>
        match (σ.pcb p).kctxt with
        | .wait statusPtr _ => some statusPtr
        | _ => none
    | .store _ _ => none

/-- The position counter of the Wait that the step continues. -/
def waitCounter (σ : Kernel) (l : Label) : Option ℕ :=
  σ.activeProc.bind fun p =>
    match l.event with
    | .resume =>
        match (σ.pcb p).kctxt with
        | .wait _ i => some i
        | _ => none
    | _ => none

/-- The child that the step's Wait returns. -/
def reaped (σ : Kernel) (l : Label) : Option Pid :=
  (σ.waitPtr l).bind fun _ =>
    match σ.outcome l with
    | some (.ret c) => if c = error then none else some c
    | _ => none

/-- No record names the process that runs as the parent. -/
def NoRecord (σ : Kernel) : Prop :=
  ∀ x ∈ σ.deadList, ∀ d ∈ x, ∀ p ∈ σ.activeProc, d.ppid ≠ p

/-- The process that runs has not exited. -/
def RunsLive (σ : Kernel) : Prop := ∀ p ∈ σ.activeProc, p ∈ σ.live

/-- A Wait that is continued has its counter at the first record, unless there is
nothing for it to reap. -/
def CountsFromOne (σ : Kernel) (l : Label) : Prop :=
  σ.waitCounter l ∈ [none, some 1] ∨ σ.NoRecord

instance (σ : Kernel) : Decidable σ.NoRecord :=
  inferInstanceAs (Decidable (∀ x ∈ σ.deadList, ∀ d ∈ x, ∀ p ∈ σ.activeProc, d.ppid ≠ p))

instance (σ : Kernel) : Decidable σ.RunsLive :=
  inferInstanceAs (Decidable (∀ p ∈ σ.activeProc, p ∈ σ.live))

instance (σ : Kernel) (l : Label) : Decidable (σ.CountsFromOne l) :=
  inferInstanceAs (Decidable (_ ∨ _))

/-! ## What a call does to the records -/

section Calls

variable {σ σ' : Kernel} {p : Pid} {o : Outcome}

/-- Fork uses up a pid or none. -/
theorem sysFork_dead (h : σ.sysFork p = some (o, σ')) : σ'.deadList = σ.deadList ∧
    (σ'.nextPid = σ.nextPid ∧ σ'.live = σ.live ∨
      σ'.nextPid = σ.nextPid + 1 ∧ σ'.live = σ.live ++ [σ.nextPid]) := by
  unfold sysFork at h
  dsimp only at h
  split at h
  · split at h
    · exact absurd h (by simp)
    split at h
    · obtain ⟨τ, hτ, h⟩ := Option.map_eq_some_iff.1 h
      obtain ⟨r, -, rfl⟩ := Option.map_eq_some_iff.1 hτ
      split at h
      · obtain ⟨-, rfl⟩ := Prod.mk.inj h
        exact ⟨rfl, .inr ⟨rfl, rfl⟩⟩
      · obtain ⟨-, rfl⟩ := Prod.mk.inj h
        exact ⟨rfl, .inr ⟨rfl, rfl⟩⟩
    · obtain ⟨-, rfl⟩ := Prod.mk.inj (Option.some.inj h)
      exact ⟨rfl, .inr ⟨rfl, rfl⟩⟩
  · obtain ⟨-, rfl⟩ := Prod.mk.inj (Option.some.inj h)
    exact ⟨rfl, .inl ⟨rfl, rfl⟩⟩

/-- The record of a death is put behind the others, or there is an error. -/
theorem insertDeadList_dead (σ : Kernel) (ppid pid : Pid) (status : Word) :
    (σ.insertDeadList ppid pid status).1 ≠ 0 ∧
        (σ.insertDeadList ppid pid status).2.deadList = σ.deadList ∨
      (σ.insertDeadList ppid pid status).1 = 0 ∧
        (σ.insertDeadList ppid pid status).2.deadList =
          σ.deadList ++ [some ⟨ppid, pid, status⟩] := by
  have herror : error ≠ 0 := by decide
  unfold insertDeadList
  dsimp only
  split
  · rw [listInsert_last]
    split
    · exact .inr ⟨rfl, rfl⟩
    · exact .inl ⟨herror, rfl⟩
  · exact .inl ⟨herror, rfl⟩

/-- Exit records the death once and ends the process, or does neither. -/
theorem sysExit_dead {status : Word} (h : σ.sysExit p status = some (o, σ')) :
    σ'.nextPid = σ.nextPid ∧ (σ'.live = σ.live ∧ σ'.deadList = σ.deadList ∨
      σ'.live = σ.live.erase p ∧ (σ'.deadList = σ.deadList ∨
        ∃ ppid, σ'.deadList = σ.deadList ++ [some ⟨ppid, p, status⟩])) := by
  unfold sysExit at h
  obtain ⟨family, -, h⟩ := Option.bind_eq_some_iff.1 h
  obtain ⟨⟨rc, τ⟩, hτ, h⟩ := Option.bind_eq_some_iff.1 h
  obtain ⟨hnext, hlive⟩ := (tellParent_touches hτ).same .pids (by simp)
  have hdead : rc ≠ 0 ∧ τ.deadList = σ.deadList ∨ rc = 0 ∧ (τ.deadList = σ.deadList ∨
      ∃ ppid, τ.deadList = σ.deadList ++ [some ⟨ppid, p, status⟩]) := by
    unfold tellParent at hτ
    dsimp only at hτ
    split at hτ
    · obtain ⟨rfl, rfl⟩ := Prod.mk.inj (Option.some.inj hτ)
      exact .inr ⟨rfl, .inl rfl⟩
    · have hd := insertDeadList_dead { σ with family := family } (family p).ppid p status
      split at hτ
      · rename_i hrc
        obtain ⟨rfl, rfl⟩ := Prod.mk.inj (Option.some.inj hτ)
        exact .inl ⟨by decide, (hd.resolve_right fun hx => hrc hx.1).2⟩
      · rename_i hrc
        obtain ⟨p₁, -, hτ⟩ := Option.map_eq_some_iff.1 hτ
        obtain ⟨rfl, rfl⟩ := Prod.mk.inj hτ
        exact .inr ⟨rfl, .inr ⟨_, (hd.resolve_left fun hx => hx.1 (not_not.1 hrc)).2⟩⟩
  dsimp only at h
  split at h
  · rename_i hrc
    obtain ⟨-, rfl⟩ := Prod.mk.inj (Option.some.inj h)
    exact ⟨hnext, .inl ⟨hlive, (hdead.resolve_right fun hx => hrc hx.1).2⟩⟩
  · rename_i hrc
    have ht := block_touches (v := [.queues, .contexts, .users]) (by simp)
      (fun _ _ _ _ h => .ret (.refl _ _) h) h
    obtain ⟨hnext', hlive'⟩ := ht.same .pids (by simp)
    obtain ⟨-, hdead', -⟩ := ht.same .tree (by simp)
    have hsame : ((τ.freeSpace p).wakeParent (τ.family p).ppid).live = τ.live ∧
        ((τ.freeSpace p).wakeParent (τ.family p).ppid).nextPid = τ.nextPid ∧
          ((τ.freeSpace p).wakeParent (τ.family p).ppid).deadList = τ.deadList := by
      unfold wakeParent
      split <;> exact ⟨rfl, rfl, rfl⟩
    refine ⟨hnext'.trans (hsame.2.1.trans hnext), .inr ⟨?_, ?_⟩⟩
    · rw [hlive']
      exact congrArg (·.erase p) (hsame.1.trans hlive)
    · have hd := (hdead.resolve_left fun hx => hx.1 (not_not.1 hrc)).2
      rw [show σ'.deadList = τ.deadList from hdead'.trans hsame.2.2]
      exact hd

/-- A Wait from its start reaps with the counter at 1, or leaves the records. -/
theorem sysWait_dead (h : σ.sysWait p = some (o, σ')) :
    (∃ k d, o = .ret d.pid ∧ Reaps σ σ' p (σ.reg 0) 1 k d) ∨
      (o = .ret error ∨ o = .switched) ∧ σ'.deadList = σ.deadList := by
  unfold sysWait at h
  dsimp only at h
  split at h
  · obtain ⟨rfl, rfl⟩ := Prod.mk.inj (Option.some.inj h)
    exact .inr ⟨.inl rfl, rfl⟩
  obtain ⟨_, -, h⟩ := Option.bind_eq_some_iff.1 h
  split at h
  · obtain ⟨rfl, rfl⟩ := Prod.mk.inj (Option.some.inj h)
    exact .inr ⟨.inl rfl, rfl⟩
  refine (scanDead_cases h).imp_right fun ⟨hnone, h⟩ => ?_
  unfold block at h
  obtain ⟨⟨s, τ⟩, hs, h⟩ := Option.bind_eq_some_iff.1 h
  have hdead : τ.deadList = σ.deadList := ((normalSchedule_touches hs).same .tree (by simp)).2.1
  cases s with
  | switched =>
      obtain ⟨rfl, rfl⟩ := Prod.mk.inj (Option.some.inj h)
      exact ⟨.inr rfl, hdead⟩
  | returned rc =>
      dsimp only at h
      split at h
      · obtain ⟨rfl, rfl⟩ := Prod.mk.inj (Option.some.inj h)
        exact ⟨.inl rfl, hdead⟩
      -- the second walk sees the records that the first one has seen
      rcases sysWaitResume_cases h with ⟨k, d, -, hreap⟩ | ⟨-, rfl, rfl⟩
      · have hmem := List.mem_of_getElem? hreap.record.at_index
        rw [hdead] at hmem
        exact absurd hreap.record.parent (hnone d hmem)
      · exact ⟨.inl rfl, hdead⟩

end Calls

/-! ## Steps -/

/-- What a step can do to the pids in use and to the records of the dead. -/
inductive DeadStep (σ σ' : Kernel) (l : Label) : Prop
  | same (reaped : σ.reaped l = none) (pids : σ'.nextPid = σ.nextPid ∧ σ'.live = σ.live)
      (deadList : σ'.deadList = σ.deadList)
  | fork (reaped : σ.reaped l = none) (nextPid : σ'.nextPid = σ.nextPid + 1)
      (live : σ'.live = σ.live ++ [σ.nextPid]) (deadList : σ'.deadList = σ.deadList)
  | exit (p ppid : Pid) (status : Word) (reaped : σ.reaped l = none)
      (active : σ.activeProc = some p)
      (pids : σ'.nextPid = σ.nextPid ∧ σ'.live = σ.live.erase p)
      (deadList : σ'.deadList = σ.deadList ∨
        σ'.deadList = σ.deadList ++ [some ⟨ppid, p, status⟩])
  | reap (p : Pid) (statusPtr : Word) (i k : ℕ) (d : DeadInfo)
      (active : σ.activeProc = some p) (ptr : σ.waitPtr l = some statusPtr)
      (outcome : σ.outcome l = some (.ret d.pid))
      (counter : i = 1 ∨ σ.waitCounter l = some i)
      (pids : σ'.nextPid = σ.nextPid ∧ σ'.live = σ.live)
      (record : FirstDead σ.deadList p k d) (stored : σ'.wordAt statusPtr = some d.status)
      (deadList : σ'.deadList = freeDead σ.deadList k (i + k))

variable {σ σ' : Kernel} {l : Label}

theorem reaped_of_waitPtr (h : σ.waitPtr l = none) : σ.reaped l = none := by
  rw [reaped, h, Option.bind_none]

theorem waitPtr_of_call (h : l.call ≠ some .wait) (hr : l.event ≠ .resume) :
    σ.waitPtr l = none := by
  unfold waitPtr
  cases σ.activeProc with
  | none => rfl
  | some p =>
      cases hl : l.event with
      | trap u => simp [h]
      | resume => exact absurd hl hr
      | store a b => rfl

theorem Touches.deadStep {vs : List View} (h : Touches vs σ σ') (hp : View.pids ∉ vs)
    (ht : View.tree ∉ vs) (hr : σ.reaped l = none) : DeadStep σ σ' l :=
  .same hr (h.same .pids hp) (h.same .tree ht).2.1

theorem Reaps.deadStep {σ₁ τ : Kernel} {p : Pid} {statusPtr : Word} {i k : ℕ} {d : DeadInfo}
    (hb : Touches [.frames, .registers] σ σ₁) (h : Reaps σ₁ τ p statusPtr i k d)
    (hp : σ.activeProc = some p) (hptr : σ.waitPtr l = some statusPtr)
    (ho : σ.outcome l = some (.ret d.pid)) (hi : i = 1 ∨ σ.waitCounter l = some i) :
    DeadStep σ (finish (.ret d.pid, τ)) l := by
  obtain ⟨record, τ', hτ', rfl⟩ := h
  obtain ⟨-, hdead, -⟩ := hb.same .tree (by simp)
  obtain ⟨hn, hl⟩ := hb.same .pids (by simp)
  obtain ⟨hn', hl'⟩ := (storeInt_touches hτ').same .pids (by simp)
  have hword := wordAt_storeInt hτ'
  exact .reap p statusPtr i k d hp hptr ho hi ⟨hn'.trans hn, hl'.trans hl⟩ (hdead ▸ record)
    hword (congrArg (freeDead · k (i + k)) hdead)

theorem sysExit_deadStep {σ₁ τ : Kernel} {p : Pid} {o : Outcome} {status : Word}
    (hb : Touches [.frames, .registers] σ σ₁) (hp : σ.activeProc = some p) (hr : σ.reaped l = none)
    (h : σ₁.sysExit p status = some (o, τ)) : DeadStep σ (finish (o, τ)) l := by
  obtain ⟨-, hdead, -⟩ := hb.same .tree (by simp)
  obtain ⟨hn, hl⟩ := hb.same .pids (by simp)
  obtain ⟨hn', hl'⟩ := (finish_touches o τ).same .pids (by simp)
  obtain ⟨-, hdead', -⟩ := (finish_touches o τ).same .tree (by simp)
  obtain ⟨hnext, ⟨hlive, hd⟩ | ⟨hlive, hd⟩⟩ := sysExit_dead h
  · exact .same hr ⟨hn'.trans (hnext.trans hn), hl'.trans (hlive.trans hl)⟩
      (hdead'.trans (hd.trans hdead))
  · have hpids : (finish (o, τ)).nextPid = σ.nextPid ∧
        (finish (o, τ)).live = σ.live.erase p :=
      ⟨hn'.trans (hnext.trans hn), by rw [hl', hlive, hl]⟩
    rcases hd with hd | ⟨ppid, hd⟩
    · exact .exit p 0 status hr hp hpids (.inl (hdead'.trans (hd.trans hdead)))
    · exact .exit p ppid status hr hp hpids (.inr (by rw [hdead', hd, hdead]))

/-- A step does one of these things to the records. -/
theorem dead_step (h : Steps σ l σ') : DeadStep σ σ' l := by
  have hnoWait : ∀ {u : UserContext}, l.event = .trap u → l.call ≠ some .wait →
      σ.reaped l = none := by
    intro u hl hc
    exact reaped_of_waitPtr (waitPtr_of_call hc (by simp [hl]))
  have hnoCall : ∀ {u : UserContext}, l.event = .trap u → u.vector ≠ 0 →
      σ.reaped l = none := by
    intro u hl hv
    apply hnoWait hl
    simp [Label.call, hl, hv]
  cases h with
  | @store a b τ hl hu h =>
      apply Touches.deadStep ((begin_touches σ l).seq (copyOut_touches h))
        (by simp) (by simp)
      apply reaped_of_waitPtr (waitPtr_of_call ?_ (by simp [hl]))
      simp [Label.call, hl]
  | @call u p c o τ hl hu hv hp hc h =>
      have hcall : l.call = some c := by simp [Label.call, hl, hv, hc]
      have hother : c ≠ .wait → σ.reaped l = none := fun hne =>
        hnoWait hl (by simpa [hcall] using hne)
      cases c with
      | fork =>
          obtain ⟨hdead, ⟨hn, hlive⟩ | ⟨hn, hlive⟩⟩ := sysFork_dead h
          · exact .same (hother (by simp))
              (by cases o <;> exact ⟨hn, hlive⟩) (by cases o <;> exact hdead)
          · exact .fork (hother (by simp)) (by cases o <;> exact hn)
              (by cases o <;> exact hlive) (by cases o <;> exact hdead)
      | exit => exact sysExit_deadStep (enter_touches σ l u) hp (hother (by simp)) h
      | wait =>
          have hptr : σ.waitPtr l = some (u.regs 0) := by simp [waitPtr, hp, hl, hcall]
          have hout := outcome_call hl hv hp hc h
          rcases sysWait_dead h with ⟨k, d, rfl, hreap⟩ | ⟨ho, hd⟩
          · exact hreap.deadStep (enter_touches σ l u) hp hptr hout (.inl rfl)
          · have hr : σ.reaped l = none := by
              rcases ho with rfl | rfl <;> simp [reaped, hptr, hout]
            have hpids := sysCall_pids (by simp) (by simp) h
            exact .same hr (by cases o <;> exact hpids) (by cases o <;> exact hd)
      | _ =>
          exact Touches.deadStep (call_touches (enter_touches σ l u) (sysCall_touches h) o)
            (by simp [callViews]) (by simp [callViews]) (hother (by simp))
  | @clock u τ hl hu hv h =>
      exact Touches.deadStep (call_touches (enter_touches σ l u) (trapClockHdl_touches h)
        .restarted) (by simp) (by simp) (hnoCall hl (by simp [hv]))
  | @abort u p o τ hl hu hv hp h =>
      refine sysExit_deadStep (enter_touches σ l u) hp (hnoCall hl fun h₀ => hv ?_) h
      simp [h₀]
  | @grow u p τ hl hu hv hp hfit h =>
      exact Touches.deadStep ((enter_touches σ l u).seq ((growUserStack_touches h).seq
        (returnUser_touches τ))) (by simp) (by simp) (hnoCall hl (by simp [hv]))
  | @receive u τ hl hu hv h =>
      exact Touches.deadStep ((call_touches (enter_touches σ l u) (trapTtyReceiveHdl_touches h)
        .restarted).trans ((returnUser_touches τ).mono (by simp))) (by simp) (by simp)
        (hnoCall hl (by simp [hv]))
  | @transmit u τ hl hu hv h =>
      exact Touches.deadStep ((call_touches (enter_touches σ l u) (trapTtyTransmitHdl_touches h)
        .restarted).trans ((returnUser_touches τ).mono (by simp))) (by simp) (by simp)
        (hnoCall hl (by simp [hv]))
  | @disk u hl hu hv =>
      exact Touches.deadStep ((enter_touches σ l u).trans
        ((returnUser_touches ((σ.begin l).enter u)).mono (by simp))) (by simp) (by simp)
        (hnoCall hl (by simp [hv]))
  | @resume p o τ hl hu hp h =>
      have hout := outcome_resume hl hp h
      by_cases hwait : ∃ s i, (σ.pcb p).kctxt = .wait s i
      · obtain ⟨s, i, hk⟩ := hwait
        have hptr : σ.waitPtr l = some s := by simp [waitPtr, hp, hl, hk]
        have hcounter : σ.waitCounter l = some i := by simp [waitCounter, hp, hl, hk]
        rw [hk] at h
        rcases sysWaitResume_cases h with ⟨k, d, rfl, hreap⟩ | ⟨-, rfl, rfl⟩
        · exact hreap.deadStep (restore_touches σ l p) hp hptr hout (.inr hcounter)
        · exact .same (by simp [reaped, hptr, hout]) ⟨rfl, rfl⟩ rfl
      · have hr : σ.reaped l = none := by
          apply reaped_of_waitPtr
          simp only [waitPtr, hp, hl, Option.bind_some]
          split
          · exact absurd ⟨_, _, ‹_›⟩ hwait
          · rfl
        refine Touches.deadStep (call_touches (restore_touches σ l p) (resumeCall_touches h) o)
          ?_ ?_ hr
        · cases (σ.pcb p).kctxt <;> simp [resumeViews]
        · cases hk : (σ.pcb p).kctxt with
          | wait s i => exact absurd ⟨s, i, hk⟩ hwait
          | _ => simp [resumeViews]

/-! ## The ledger of a run -/

/-- The children that the Waits of a run have returned, oldest first. -/
def reapedPids (tr : List (Move Kernel Label)) : List Pid :=
  tr.filterMap fun m => m.before.reaped m.label

theorem reapedPids_snoc (tr : List (Move Kernel Label)) (σ : Kernel) (l : Label)
    (σ' : Kernel) : reapedPids (tr ++ [⟨σ, l, σ'⟩]) = reapedPids tr ++ (σ.reaped l).toList := by
  unfold reapedPids
  rw [List.filterMap_append]
  cases h : σ.reaped l <;> simp [h]

/-- Every process that has been created is alive, or in one record of the dead,
or has been reaped once. -/
structure Ledger (tr : List (Move Kernel Label)) (σ : Kernel) (ds : List DeadInfo) : Prop where
  nodup : σ.live.Nodup
  nextPid : 0 ≤ σ.nextPid
  bound : ∀ q ∈ σ.live, 0 ≤ q ∧ q < σ.nextPid
  records : σ.deadList = ds.map some
  once : (ds.map DeadInfo.pid ++ reapedPids tr).Nodup
  dead : ∀ q ∈ ds.map DeadInfo.pid ++ reapedPids tr, (0 ≤ q ∧ q < σ.nextPid) ∧ q ∉ σ.live

/-- With the counter at 1, the record that is reaped leaves the list. -/
theorem freeDead_one {l : List (Option DeadInfo)} {k : ℕ} {x : Option DeadInfo}
    (h : l[k]? = some x) : freeDead l k (1 + k) = l.eraseIdx k := by
  have hk : k < l.length := (List.getElem?_eq_some_iff.1 h).1
  have hloc : ¬(((1 + k : ℕ) : Int) > (l.set k none).length ∨ ((1 + k : ℕ) : Int) < 1) := by
    rw [List.length_set]
    omega
  have hidx : (((1 + k : ℕ) : Int) - 1).toNat = k := by omega
  have hget : (l.set k none)[k]? = some none := by
    rw [List.getElem?_set_self hk]
  unfold freeDead listRemove
  rw [if_neg hloc, hidx, hget]
  simp [List.eraseIdx_set_eq]

namespace Ledger

variable {tr : List (Move Kernel Label)} {ds : List DeadInfo}

/-- A Wait that finds a record and counts from 1 has its counter at 1. -/
theorem counter {p : Pid} {i k : ℕ} {d : DeadInfo} (hc : σ.CountsFromOne l)
    (hp : σ.activeProc = some p) (hr : FirstDead σ.deadList p k d)
    (hi : i = 1 ∨ σ.waitCounter l = some i) : i = 1 := by
  rcases hi with hi | hi
  · exact hi
  rcases hc with hc | hc
  · rw [hi] at hc
    simpa using hc
  · have hmem := List.mem_of_getElem? hr.at_index
    exact absurd hr.parent (hc _ hmem d rfl p hp)

theorem step (h : Ledger tr σ ds) (hlive : σ.RunsLive) (hc : σ.CountsFromOne l)
    (hs : DeadStep σ σ' l) : ∃ ds', Ledger (tr ++ [⟨σ, l, σ'⟩]) σ' ds' := by
  cases hs with
  | same reaped pids deadList =>
      refine ⟨ds, ?_⟩
      constructor
      · rw [pids.2]
        exact h.nodup
      · rw [pids.1]
        exact h.nextPid
      · rw [pids.1, pids.2]
        exact h.bound
      · rw [deadList]
        exact h.records
      · rw [reapedPids_snoc, reaped, Option.toList_none, List.append_nil]
        exact h.once
      · rw [reapedPids_snoc, reaped, Option.toList_none, List.append_nil, pids.1, pids.2]
        exact h.dead
  | fork reaped nextPid live deadList =>
      have hnew : σ.nextPid ∉ σ.live := fun hm => lt_irrefl _ (h.bound _ hm).2
      have hnn := h.nextPid
      refine ⟨ds, ?_⟩
      constructor
      · rw [live, ← List.concat_eq_append]
        exact h.nodup.concat hnew
      · rw [nextPid]
        omega
      · rw [live, nextPid]
        intro q hq
        rcases List.mem_append.1 hq with hq | hq
        · exact ⟨(h.bound q hq).1, (h.bound q hq).2.trans (Int.lt_succ σ.nextPid)⟩
        · obtain rfl := List.mem_singleton.1 hq
          exact ⟨hnn, Int.lt_succ σ.nextPid⟩
      · rw [deadList]
        exact h.records
      · rw [reapedPids_snoc, reaped, Option.toList_none, List.append_nil]
        exact h.once
      · rw [reapedPids_snoc, reaped, Option.toList_none, List.append_nil, nextPid, live]
        intro q hq
        obtain ⟨⟨hq₀, hqn⟩, hql⟩ := h.dead q hq
        refine ⟨⟨hq₀, hqn.trans (Int.lt_succ σ.nextPid)⟩, fun hm => ?_⟩
        rcases List.mem_append.1 hm with hm | hm
        · exact hql hm
        · obtain rfl := List.mem_singleton.1 hm
          exact lt_irrefl _ hqn
  | exit p ppid status reaped active pids deadList =>
      have hp : p ∈ σ.live := hlive p active
      have hpd : p ∉ ds.map DeadInfo.pid ++ reapedPids tr := fun hm => (h.dead p hm).2 hp
      have hnot : ∀ q, q ∈ σ'.live → q ∈ σ.live := by
        intro q hq
        rw [pids.2] at hq
        exact List.mem_of_mem_erase hq
      have hdead : ∀ q ∈ ds.map DeadInfo.pid ++ reapedPids tr,
          (0 ≤ q ∧ q < σ'.nextPid) ∧ q ∉ σ'.live := by
        intro q hq
        rw [pids.1]
        exact ⟨(h.dead q hq).1, fun hm => (h.dead q hq).2 (hnot q hm)⟩
      have hold : σ'.live.Nodup ∧ 0 ≤ σ'.nextPid ∧
          ∀ q ∈ σ'.live, 0 ≤ q ∧ q < σ'.nextPid := by
        rw [pids.1]
        refine ⟨?_, h.nextPid, fun q hq => h.bound q (hnot q hq)⟩
        rw [pids.2]
        exact h.nodup.erase p
      rcases deadList with hd | hd
      · refine ⟨ds, hold.1, hold.2.1, hold.2.2, hd.trans h.records, ?_, ?_⟩
        · rw [reapedPids_snoc, reaped, Option.toList_none, List.append_nil]
          exact h.once
        · rw [reapedPids_snoc, reaped, Option.toList_none, List.append_nil]
          exact hdead
      · -- the new record is the only place of the process that ends
        refine ⟨ds ++ [⟨ppid, p, status⟩], hold.1, hold.2.1, hold.2.2, ?_, ?_, ?_⟩
        · rw [hd, h.records, List.map_append]
          rfl
        · rw [reapedPids_snoc, reaped, Option.toList_none, List.append_nil, List.map_append,
            List.append_assoc]
          exact List.nodup_middle.2 (List.nodup_cons.2 ⟨hpd, h.once⟩)
        · rw [reapedPids_snoc, reaped, Option.toList_none, List.append_nil, List.map_append,
            List.append_assoc]
          intro q hq
          rcases List.mem_append.1 hq with hq | hq
          · exact hdead q (List.mem_append_left _ hq)
          rcases List.mem_append.1 hq with hq | hq
          · obtain rfl := List.mem_singleton.1 hq
            refine ⟨?_, ?_⟩
            · rw [pids.1]
              exact h.bound _ hp
            · rw [pids.2]
              exact h.nodup.not_mem_erase
          · exact hdead q (List.mem_append_right _ hq)
  | reap p statusPtr i k d active ptr outcome counter pids record stored deadList =>
      obtain rfl := Ledger.counter hc active record counter
      have hget : ds[k]? = some d := by
        have hat := record.at_index
        rw [h.records, List.getElem?_map] at hat
        simpa using hat
      obtain ⟨hk, hdk⟩ := List.getElem?_eq_some_iff.1 hget
      have hpid : d.pid ∈ ds.map DeadInfo.pid ++ reapedPids tr :=
        List.mem_append_left _ (List.mem_map_of_mem (List.mem_of_getElem? hget))
      have hreaped : σ.reaped l = some d.pid := by
        have hne : d.pid ≠ error := by
          have hnn := (h.dead _ hpid).1.1
          intro he
          rw [he] at hnn
          exact absurd hnn (by decide)
        simp [Kernel.reaped, ptr, outcome, hne]
      have hperm : List.Perm ((ds.eraseIdx k).map DeadInfo.pid ++ (reapedPids tr ++ [d.pid]))
          (ds.map DeadInfo.pid ++ reapedPids tr) := by
        have hds := (List.getElem_cons_eraseIdx_perm hk).map DeadInfo.pid
        rw [hdk, List.map_cons] at hds
        rw [← List.append_assoc]
        exact (List.perm_append_singleton _ _).trans (hds.append_right (reapedPids tr))
      refine ⟨ds.eraseIdx k, ?_⟩
      constructor
      · rw [pids.2]
        exact h.nodup
      · rw [pids.1]
        exact h.nextPid
      · rw [pids.1, pids.2]
        exact h.bound
      · rw [deadList, freeDead_one record.at_index, h.records, List.eraseIdx_map]
      · rw [reapedPids_snoc, hreaped, Option.toList_some]
        exact hperm.nodup_iff.2 h.once
      · rw [reapedPids_snoc, hreaped, Option.toList_some, pids.1, pids.2]
        intro q hq
        exact h.dead q (hperm.mem_iff.1 hq)

end Ledger

/-- The Wait of the move returns the child of the first record that names the
caller, stores its status, and takes exactly this record out of the list. -/
def ReapsOne (m : Move Kernel Label) : Prop :=
  ∀ c, m.before.reaped m.label = some c → ∃ p statusPtr k d,
    m.before.activeProc = some p ∧ m.before.waitPtr m.label = some statusPtr ∧
      FirstDead m.before.deadList p k d ∧ d.pid = c ∧
        m.after.wordAt statusPtr = some d.status ∧
          m.after.deadList = m.before.deadList.eraseIdx k

variable {b : Boot} {σ₀ : Kernel}

theorem ledger_boot (hb : Booted σ₀) : Ledger [] σ₀ [] where
  nodup := by
    rw [hb.live]
    decide
  nextPid := by
    rw [hb.nextPid]
    decide
  bound := by
    rw [hb.live, hb.nextPid]
    decide
  records := hb.deadList
  once := List.nodup_nil
  dead q hq := by simp [reapedPids] at hq

theorem ledger_of_run {tr : List (Move Kernel Label)} (h₀ : kernelStart b = some σ₀)
    (h : Run Kernel.step (fun σ l _ => σ.RunsLive ∧ σ.CountsFromOne l) σ₀ tr σ) :
    ∃ ds, Ledger tr σ ds := by
  refine h.history (I := fun tr σ => ∃ ds, Ledger tr σ ds)
    ⟨[], ledger_boot (kernelStart_booted h₀)⟩ ?_
  rintro tr σ l σ' ⟨ds, hledger⟩ hs ⟨hlive, hc⟩
  exact hledger.step hlive hc (dead_step (step_cases hs))

/-- In every run in which no process runs after its Exit and each Wait that
continues counts from the first record, a Wait reaps the first record of its
caller and takes out this record only, and no child is returned twice. -/
theorem run_reaps_once {tr : List (Move Kernel Label)} (h₀ : kernelStart b = some σ₀)
    (h : Run Kernel.step (fun σ l _ => σ.RunsLive ∧ σ.CountsFromOne l) σ₀ tr σ) :
    (∀ m ∈ tr, ReapsOne m) ∧ (reapedPids tr).Nodup := by
  constructor
  · intro m hm c hreaped
    obtain ⟨tr', hrun, hstep, hlive, hc⟩ := h.reaches_before hm
    obtain ⟨ds, hledger⟩ := ledger_of_run h₀ hrun
    cases dead_step (step_cases hstep) with
    | same reaped => exact absurd (reaped.symm.trans hreaped) (by simp)
    | fork reaped => exact absurd (reaped.symm.trans hreaped) (by simp)
    | exit p ppid status reaped => exact absurd (reaped.symm.trans hreaped) (by simp)
    | reap p statusPtr i k d active ptr outcome counter pids record stored deadList =>
        obtain rfl := Ledger.counter hc active record counter
        have hpid : d.pid = c := by
          simp only [Kernel.reaped, ptr, outcome, Option.bind_some] at hreaped
          split at hreaped
          · exact absurd hreaped (by simp)
          · exact Option.some.inj hreaped
        refine ⟨p, statusPtr, k, d, active, ptr, record, hpid, stored, ?_⟩
        rw [deadList, freeDead_one record.at_index]
  · obtain ⟨ds, hledger⟩ := ledger_of_run h₀ h
    exact (List.nodup_append.1 hledger.once).2.1

/-- The theorem on a run in which init reaps a child that has exited before. -/
theorem run_reaps_once_child : ∃ σ₀ tr σ, kernelStart smallBoot = some σ₀ ∧
    Run Kernel.step (fun σ l _ => σ.RunsLive ∧ σ.CountsFromOne l) σ₀ tr σ ∧ tr.length = 6 ∧
      (∀ m ∈ tr, ReapsOne m) ∧ (reapedPids tr).Nodup := by
  obtain ⟨σ₀, tr, σ, h₀, hr, hlen⟩ := bootExec_run (b := smallBoot)
    (C := fun σ l _ => σ.RunsLive ∧ σ.CountsFromOne l)
    (t := [smallCall .fork 0 0 0, smallCall .wait vmem1Base 0 0, resumption,
      smallCall .exit 7 0 0, resumption, smallCall .getpid 0 0 0])
    (by decide +kernel)
  exact ⟨σ₀, tr, σ, h₀, hr, hlen, run_reaps_once h₀ hr⟩

/-- A Wait that blocks while another parent has a record frees the record of its
child and leaves it in the list. -/
theorem not_reapsOne : ∃ σ₀ tr σ, kernelStart smallBoot = some σ₀ ∧
    Run Kernel.step (fun σ l σ' => σ.Allocates l σ' ∧ σ.IdlePauses l ∧ σ.RunsLive) σ₀ tr σ ∧
      ∃ m ∈ tr, ¬ReapsOne m := by
  obtain ⟨σ₀, tr, σ, σ', h₀, -, hr, hreaped, hbefore, hafter⟩ := bootExec_move (b := smallBoot)
    (C := fun σ l σ' => σ.Allocates l σ' ∧ σ.IdlePauses l ∧ σ.RunsLive) (l := resumption)
    (P := fun σ σ' => σ.reaped resumption = some 2 ∧ σ.deadList.length = 2 ∧
      σ'.deadList.length = 2)
    (t := [smallCall .fork 0 0 0, clockTick, resumption, smallCall .fork 0 0 0, clockTick,
      resumption, clockTick, resumption, smallCall .exit 7 0 0, resumption, clockTick,
      resumption, smallCall .wait vmem1Base 0 0, resumption, smallCall .exit 9 0 0])
    (by decide +kernel)
  refine ⟨σ₀, _, σ', h₀, hr, ⟨σ, resumption, σ'⟩, by simp, fun hone => ?_⟩
  obtain ⟨p, statusPtr, k, d, -, -, hrecord, -, -, hdead⟩ := hone 2 hreaped
  have hk := (List.getElem?_eq_some_iff.1 hrecord.at_index).1
  have hlen := congrArg List.length hdead
  rw [List.length_eraseIdx_of_lt hk] at hlen
  dsimp only at hlen
  omega

end Kernel

end Yalnix
