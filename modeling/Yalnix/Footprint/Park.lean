import Yalnix.Footprint.Step

/-!
# A call that switches leaves its process where it blocked

`Parks K p o σ'` says that a call of `p` that ended in a switch has left `p` at a
place in `K`. Calls that never block do not end in a switch at all.
-/

namespace Yalnix

/-- After a switch process `p` is at a place in `K`, its user context has been saved, and
another one runs in the kernel. Otherwise `p` still runs, in user code if it has not returned
from a call. -/
structure Parks (K : KernelContext → Prop) (p : Pid) (o : Outcome) (σ' : Kernel) : Prop where
  parked : o = .switched → K (σ'.pcb p).kctxt
  saved : o = .switched → (σ'.pcb p).uctxt = σ'.uContext
  kernel : o = .switched → σ'.userMode = false
  stays : o ≠ .switched → σ'.activeProc = some p
  user : o = .restarted → σ'.userMode = true

namespace Parks

variable {K L : KernelContext → Prop} {σ σ₁ σ' : Kernel} {p : Pid} {o : Outcome}

theorem of_returns (h : ∃ v, o = .ret v) (hp : σ'.activeProc = some p) : Parks K p o σ' := by
  obtain ⟨v, rfl⟩ := h
  exact ⟨fun he => absurd he (by simp), fun he => absurd he (by simp),
    fun he => absurd he (by simp), fun _ => hp, fun he => absurd he (by simp)⟩

theorem of_user (hp : σ'.activeProc = some p) (hu : σ'.userMode = true) :
    Parks K p .restarted σ' :=
  ⟨fun he => absurd he (by simp), fun he => absurd he (by simp), fun he => absurd he (by simp),
    fun _ => hp, fun _ => hu⟩

theorem ret {v : Int} (hp : σ.activeProc = some p)
    (h : some (Outcome.ret v, σ) = some (o, σ')) : Parks K p o σ' := by
  obtain ⟨rfl, rfl⟩ := Prod.mk.inj (Option.some.inj h)
  exact of_returns ⟨v, rfl⟩ hp

theorem mono (h : Parks K p o σ') (hKL : ∀ k, K k → L k) : Parks L p o σ' :=
  ⟨fun he => hKL _ (h.parked he), h.saved, h.kernel, h.stays, h.user⟩

end Parks

/-- Who runs is part of what places in the kernel are about. -/
theorem Touches.activeProc {vs : List View} {σ σ' : Kernel} {p : Pid} (h : Touches vs σ σ')
    (hvs : View.contexts ∉ vs) (hp : σ.activeProc = some p) : σ'.activeProc = some p :=
  (h.same .contexts hvs).1.trans hp

namespace Kernel

variable {σ σ' : Kernel} {p : Pid} {o : Outcome} {K : KernelContext → Prop}

/-! ## Blocking -/

theorem contextSwitch_parks {new : Pid} {k : KernelContext}
    (h : σ.contextSwitch (some p) new k = some σ') : (σ'.pcb p).kctxt = k := by
  unfold contextSwitch at h
  split at h
  · exact absurd h (by simp)
  obtain ⟨τ, -, rfl⟩ := Option.map_eq_some_iff.1 h
  change ((τ.saveKernel k (some p)).pcb p).kctxt = k
  rw [saveKernel_kctxt, if_pos rfl]

theorem contextSwitch_user {old : Option Pid} {new : Pid} {k : KernelContext}
    (h : σ.contextSwitch old new k = some σ') : σ'.userMode = false := by
  unfold contextSwitch at h
  split at h
  · exact absurd h (by simp)
  obtain ⟨τ, -, rfl⟩ := Option.map_eq_some_iff.1 h
  rfl

theorem normalSchedule_user {k : KernelContext}
    (h : σ.normalSchedule k = some (.switched, σ')) : σ'.userMode = false := by
  unfold normalSchedule at h
  split at h
  · cases hn : σ.nextReady with
    | mk next τ =>
        rw [hn] at h
        cases next with
        | none => simp at h
        | some next =>
            obtain ⟨τ', hτ, h⟩ := Option.map_eq_some_iff.1 h
            obtain ⟨-, rfl⟩ := Prod.mk.inj h
            exact contextSwitch_user hτ
  · simp at h

theorem normalSchedule_parks {k : KernelContext} (hp : σ.activeProc = some p)
    (h : σ.normalSchedule k = some (.switched, σ')) : (σ'.pcb p).kctxt = k := by
  unfold normalSchedule at h
  split at h
  · have hactive := ((nextReady_touches σ).same .contexts (by simp)).1
    cases hn : σ.nextReady with
    | mk next τ =>
        rw [hn] at h hactive
        cases next with
        | none => simp at h
        | some next =>
            obtain ⟨τ', hτ, h⟩ := Option.map_eq_some_iff.1 h
            obtain ⟨-, rfl⟩ := Prod.mk.inj h
            dsimp only at hτ hactive
            rw [hactive, hp] at hτ
            exact contextSwitch_parks hτ
  · simp at h

theorem contextSwitch_saved {new : Pid} {k : KernelContext}
    (h : σ.contextSwitch (some p) new k = some σ') : (σ'.pcb p).uctxt = σ'.uContext := by
  rw [contextSwitch_uctxt h, if_pos rfl]
  exact ((contextSwitch_touches h).same .registers (by simp)).1.symm

theorem normalSchedule_saved {k : KernelContext} (hp : σ.activeProc = some p)
    (h : σ.normalSchedule k = some (.switched, σ')) : (σ'.pcb p).uctxt = σ'.uContext := by
  unfold normalSchedule at h
  split at h
  · have hactive := ((nextReady_touches σ).same .contexts (by simp)).1
    cases hn : σ.nextReady with
    | mk next τ =>
        rw [hn] at h hactive
        cases next with
        | none => simp at h
        | some next =>
            obtain ⟨τ', hτ, h⟩ := Option.map_eq_some_iff.1 h
            obtain ⟨-, rfl⟩ := Prod.mk.inj h
            dsimp only at hτ hactive
            rw [hactive, hp] at hτ
            exact contextSwitch_saved hτ
  · simp at h

theorem block_parks {k : KernelContext} {after : Kernel → Option (Outcome × Kernel)}
    (hp : σ.activeProc = some p) (hk : K k)
    (hafter : ∀ τ o τ', τ.activeProc = some p → after τ = some (o, τ') → Parks K p o τ')
    (h : σ.block k after = some (o, σ')) : Parks K p o σ' := by
  unfold block at h
  obtain ⟨⟨s, τ⟩, hs, h⟩ := Option.bind_eq_some_iff.1 h
  cases s with
  | switched =>
      obtain ⟨rfl, rfl⟩ := Prod.mk.inj (Option.some.inj h)
      refine ⟨fun _ => ?_, fun _ => normalSchedule_saved hp hs,
        fun _ => normalSchedule_user hs, fun he => absurd rfl he,
        fun he => absurd he (by simp)⟩
      rw [normalSchedule_parks hp hs]
      exact hk
  | returned rc =>
      have hτ := (normalSchedule_returned hs).activeProc (by simp) hp
      dsimp only at h
      split at h
      · exact .ret hτ h
      · exact hafter _ _ _ hτ h

/-! ## Calls that may block -/

theorem scanDead_parks {statusPtr : Word} {i : ℕ} {otherwise : Option (Outcome × Kernel)}
    (hp : σ.activeProc = some p) (hother : otherwise = some (o, σ') → Parks K p o σ') {q : Pid}
    (h : σ.scanDead q statusPtr i otherwise = some (o, σ')) : Parks K p o σ' := by
  unfold scanDead at h
  split at h
  · exact hother h
  split at h
  · obtain ⟨τ, hτ, h⟩ := Option.map_eq_some_iff.1 h
    obtain ⟨rfl, rfl⟩ := Prod.mk.inj h
    exact .of_returns ⟨_, rfl⟩ ((storeInt_touches hτ).activeProc (by simp) hp)
  · exact absurd h (by simp)

theorem sysWaitResume_parks {statusPtr : Word} {i : ℕ} {q : Pid} (hp : σ.activeProc = some p)
    (h : σ.sysWaitResume q statusPtr i = some (o, σ')) : Parks K p o σ' :=
  scanDead_parks hp (fun h => .ret hp h) h

theorem sysWait_parks (hp : σ.activeProc = some p) (h : σ.sysWait p = some (o, σ')) :
    Parks (fun k => ∃ s i, k = .wait s i) p o σ' := by
  unfold sysWait at h
  dsimp only at h
  split at h
  · exact .ret hp h
  obtain ⟨_, -, h⟩ := Option.bind_eq_some_iff.1 h
  split at h
  · exact .ret hp h
  refine scanDead_parks hp (fun h => ?_) h
  exact block_parks ((waitInsert_touches σ p).activeProc (by simp) hp) ⟨_, _, rfl⟩
    (fun _ _ _ hτ h => sysWaitResume_parks hτ h) h

theorem sysDelay_parks (hp : σ.activeProc = some p) (h : σ.sysDelay p = some (o, σ')) :
    Parks (· = .delay) p o σ' := by
  unfold sysDelay at h
  dsimp only at h
  split at h
  · exact .ret hp h
  split at h
  · exact .ret hp h
  have hsleep := (insertSleepList_touches σ p (σ.reg 0).toInt).activeProc (by simp) hp
  split at h
  · exact .ret hsleep h
  · exact block_parks hsleep rfl (fun _ _ _ hτ h => .ret hτ h) h

theorem sysTtyReadResume_parks {ttyId : Int} {q : Pid} (hp : σ.activeProc = some p)
    (h : σ.sysTtyReadResume q ttyId = some (o, σ')) : Parks K p o σ' := by
  have hactive := (sysTtyReadResume_touches h).activeProc (by simp) hp
  unfold sysTtyReadResume at h
  dsimp only at h
  split at h
  · obtain ⟨τ, -, h⟩ := Option.map_eq_some_iff.1 h
    obtain ⟨rfl, -⟩ := Prod.mk.inj h
    exact .of_returns ⟨_, rfl⟩ hactive
  · exact absurd h (by simp)

theorem sysTtyRead_parks (hp : σ.activeProc = some p) (h : σ.sysTtyRead p = some (o, σ')) :
    Parks (fun k => ∃ t, k = .ttyRead t) p o σ' := by
  unfold sysTtyRead at h
  dsimp only at h
  split at h
  · exact .ret hp h
  split at h
  · exact .ret hp h
  split at h
  · exact .ret hp h
  split at h
  · exact .ret hp h
  have hio := (ioInsert_touches (σ.setPcb p { σ.pcb p with
    ttyId := (σ.reg 0).toInt, buf := σ.reg 1, len := (σ.reg 2).toInt, state := .blockedR })
    p).activeProc (by simp) hp
  split at h
  · exact .ret hio h
  · exact block_parks hio ⟨_, rfl⟩ (fun _ _ _ hτ h => sysTtyReadResume_parks hτ h) h

theorem ttyWriteLoop_parks {n : ℕ} {ttyId remainBytes : Int} (hp : σ.activeProc = some p)
    (h : ttyWriteLoop n σ p ttyId remainBytes = some (o, σ')) :
    Parks (fun k => ∃ r, k = .ttyBusy ttyId r ∨ k = .ttySent ttyId r) p o σ' := by
  induction n generalizing σ σ' o remainBytes with
  | zero => exact absurd h (by simp [ttyWriteLoop])
  | succ n ih =>
      unfold ttyWriteLoop at h
      dsimp only at h
      split at h
      · exact .ret hp h
      split at h
      swap
      · exact absurd h (by simp)
      split at h
      · have hw := (blockWriter_touches σ p).activeProc (by simp) hp
        split at h
        · exact .ret hw h
        · exact block_parks hw ⟨_, .inl rfl⟩ (fun _ _ _ hτ h => ih hτ h) h
      · obtain ⟨bytes, -, h⟩ := Option.bind_eq_some_iff.1 h
        have hw := (blockWriter_touches (σ.ttyTransmit ttyId bytes) p).activeProc (by simp) hp
        split at h
        · exact .ret hw h
        · exact block_parks hw ⟨_, .inr rfl⟩ (fun _ _ _ hτ h => ih hτ h) h

theorem sysTtyWrite_parks (hp : σ.activeProc = some p) (h : σ.sysTtyWrite p = some (o, σ')) :
    Parks (fun k => ∃ r, k = .ttyBusy (σ.reg 0).toInt r ∨ k = .ttySent (σ.reg 0).toInt r)
      p o σ' := by
  unfold sysTtyWrite at h
  dsimp only at h
  split at h
  · exact .ret hp h
  split at h
  · exact .ret hp h
  split at h
  · exact .ret hp h
  split at h
  · exact .ret hp h
  · exact ttyWriteLoop_parks hp h

theorem takeBytes_returns {a : ℕ} {buf : Word} {len : Int}
    (h : σ.takeBytes a buf len = some (o, σ')) : ∃ v, o = .ret v := by
  unfold takeBytes at h
  obtain ⟨τ, -, h⟩ := Option.bind_eq_some_iff.1 h
  dsimp only at h
  split at h
  · obtain ⟨rfl, -⟩ := Prod.mk.inj (Option.some.inj h)
    exact ⟨_, rfl⟩
  · exact absurd h (by simp)

theorem pipeReadLoop_parks {a : ℕ} {pipeId : Int} {buf : Word} {len : Int} {exist : Bool}
    (hp : σ.activeProc = some p)
    (h : σ.pipeReadLoop p a pipeId buf len exist = some (o, σ')) :
    Parks (· = .pipeRead a pipeId buf len exist) p o σ' := by
  unfold pipeReadLoop at h
  split at h
  swap
  · exact absurd h (by simp)
  split at h
  · exact block_parks ((pipeWaitInsert_touches σ a p).activeProc (by simp) hp) rfl
      (fun _ _ _ _ h => absurd h (by simp)) h
  · exact .of_returns (takeBytes_returns h) ((takeBytes_touches h).activeProc (by simp) hp)

theorem sysPipeRead_parks (hp : σ.activeProc = some p) (h : σ.sysPipeRead p = some (o, σ')) :
    Parks (fun k => ∃ a i b n, k = .pipeRead a i b n false) p o σ' := by
  unfold sysPipeRead at h
  dsimp only at h
  split at h
  · exact .ret hp h
  split at h
  · exact .ret hp h
  split at h
  · exact .ret hp h
  split at h
  · exact .ret hp h
  · exact (pipeReadLoop_parks hp h).mono fun k hk => ⟨_, _, _, _, hk⟩

theorem sysPipeReadResume_parks {a : ℕ} {pipeId : Int} {buf : Word} {len : Int} {exist : Bool}
    (hp : σ.activeProc = some p)
    (h : σ.sysPipeReadResume p a pipeId buf len exist = some (o, σ')) :
    Parks (fun k => ∃ e, k = .pipeRead a pipeId buf len e) p o σ' := by
  unfold sysPipeReadResume at h
  dsimp only at h
  split at h
  · exact (pipeReadLoop_parks hp h).mono fun k hk => ⟨_, hk⟩
  · exact .ret hp h

theorem acquireLoop_parks {via : Option Int} {a : ℕ} {lockId : Int} {exist : Bool}
    (hp : σ.activeProc = some p) (h : σ.acquireLoop p via a lockId exist = some (o, σ')) :
    Parks (· = .acquire via a lockId exist) p o σ' := by
  unfold acquireLoop at h
  dsimp only at h
  split at h
  swap
  · exact absurd h (by simp)
  split at h
  · exact block_parks ((lockWaitInsert_touches σ a p).activeProc (by simp) hp) rfl
      (fun _ _ _ _ h => absurd h (by simp)) h
  · exact .ret (by exact hp) h

theorem sysAcquireResume_parks {via : Option Int} {a : ℕ} {lockId : Int} {exist : Bool}
    (hp : σ.activeProc = some p)
    (h : σ.sysAcquireResume p via a lockId exist = some (o, σ')) :
    Parks (fun k => ∃ e, k = .acquire via a lockId e) p o σ' := by
  unfold sysAcquireResume at h
  dsimp only at h
  split at h
  · exact (acquireLoop_parks hp h).mono fun k hk => ⟨_, hk⟩
  · exact .ret hp h

theorem sysAcquire_parks {via : Option Int} {id : Int} (hp : σ.activeProc = some p)
    (h : σ.sysAcquire p via id = some (o, σ')) :
    Parks (fun k => ∃ v a x e, k = .acquire v a x e) p o σ' := by
  unfold sysAcquire at h
  dsimp only at h
  split at h
  · exact .ret hp h
  split at h
  · exact .ret hp h
  · exact (acquireLoop_parks hp h).mono fun k hk => ⟨_, _, _, _, hk⟩

theorem sysCvarWaitResume_parks {cvarId lockId : Int} (hp : σ.activeProc = some p)
    (h : σ.sysCvarWaitResume p cvarId lockId = some (o, σ')) :
    Parks (fun k => ∃ v a x e, k = .acquire v a x e) p o σ' := by
  unfold sysCvarWaitResume at h
  split at h
  · exact sysAcquire_parks hp h
  · exact .ret hp h

theorem sysCvarWait_parks (hp : σ.activeProc = some p) (h : σ.sysCvarWait p = some (o, σ')) :
    Parks (fun k => (∃ a c x, k = .cvarWait a c x) ∨ ∃ v a x e, k = .acquire v a x e) p o σ' := by
  unfold sysCvarWait at h
  dsimp only at h
  have hrel := (sysRelease_touches σ p (σ.reg 1).toInt).activeProc (by simp) hp
  generalize σ.sysRelease p (σ.reg 1).toInt = r at h hrel
  split at h
  · exact .ret hrel h
  split at h
  · exact .ret hrel h
  rename_i a _
  refine block_parks ((cvarWaitInsert_touches r.2 a p).activeProc (by simp) hrel)
    (.inl ⟨_, _, _, rfl⟩) (fun _ _ _ hτ h => ?_) h
  exact (sysCvarWaitResume_parks hτ h).mono fun k hk => .inr hk

theorem sysCustom2_parks (hp : σ.activeProc = some p) (h : σ.sysCustom2 p = some (o, σ')) :
    Parks (· = .semWait) p o σ' := by
  unfold sysCustom2 at h
  obtain ⟨a, -, h⟩ := Option.bind_eq_some_iff.1 h
  dsimp only at h
  split at h
  · exact block_parks (((Touches.semaphores _).trans (semWaitInsert_touches _ a p)).activeProc
      (by simp) hp) rfl (fun _ _ _ hτ h => .ret hτ h) h
  · exact .ret (by exact hp) h

/-! ## Calls that never block -/

theorem returns {v : Int} {τ : Kernel} (h : (Outcome.ret v, τ) = (o, σ')) :
    ∃ v, o = .ret v := ⟨v, (Prod.mk.inj h).1.symm⟩

theorem sysBrk_returns (h : σ.sysBrk p = some (o, σ')) : ∃ v, o = .ret v := by
  obtain ⟨r, -, h⟩ := Option.map_eq_some_iff.1 h
  split at h
  · exact returns h
  · exact returns h

theorem sysFork_returns (h : σ.sysFork p = some (o, σ')) : ∃ v, o = .ret v := by
  unfold sysFork at h
  dsimp only at h
  split at h
  · split at h
    · exact absurd h (by simp)
    split at h
    · obtain ⟨τ, -, h⟩ := Option.map_eq_some_iff.1 h
      split at h
      · exact returns h
      · exact returns h
    · exact returns (Option.some.inj h)
  · exact returns (Option.some.inj h)

/-- Fork does not change who runs. -/
theorem sysFork_activeProc (h : σ.sysFork p = some (o, σ')) : σ'.activeProc = σ.activeProc := by
  unfold sysFork at h
  dsimp only at h
  split at h
  · split at h
    · exact absurd h (by simp)
    split at h
    · obtain ⟨τ, hτ, h⟩ := Option.map_eq_some_iff.1 h
      obtain ⟨r, -, rfl⟩ := Option.map_eq_some_iff.1 hτ
      split at h
      · obtain ⟨-, rfl⟩ := Prod.mk.inj h
        rfl
      · obtain ⟨-, rfl⟩ := Prod.mk.inj h
        rfl
    · obtain ⟨-, rfl⟩ := Prod.mk.inj (Option.some.inj h)
      rfl
  · obtain ⟨-, rfl⟩ := Prod.mk.inj (Option.some.inj h)
    rfl

/-- Exec returns, or goes on in user code. -/
theorem sysExec_parks (hp : σ.activeProc = some p) (h : σ.sysExec p = some (o, σ')) :
    Parks K p o σ' := by
  have hactive := (sysExec_touches h).activeProc (by simp) hp
  unfold sysExec at h
  dsimp only at h
  split at h
  · exact .ret hp h
  obtain ⟨r, -, h⟩ := Option.map_eq_some_iff.1 h
  split at h
  · exact .of_returns (returns h) hactive
  · obtain ⟨rfl, rfl⟩ := Prod.mk.inj h
    exact .of_user hactive rfl

theorem sysExec_ends (h : σ.sysExec p = some (o, σ')) : (∃ v, o = .ret v) ∨ o = .restarted := by
  unfold sysExec at h
  dsimp only at h
  split at h
  · exact .inl (returns (Option.some.inj h))
  obtain ⟨r, -, h⟩ := Option.map_eq_some_iff.1 h
  split at h
  · exact .inl (returns h)
  · exact .inr (Prod.mk.inj h).1.symm

theorem sysPipeInit_returns (h : σ.sysPipeInit p = some (o, σ')) : ∃ v, o = .ret v := by
  unfold sysPipeInit at h
  dsimp only at h
  split at h
  · exact returns (Option.some.inj h)
  split at h
  · exact returns (Option.some.inj h)
  split at h
  · exact returns (Option.some.inj h)
  obtain ⟨τ, -, h⟩ := Option.bind_eq_some_iff.1 h
  split at h
  · exact returns (Option.some.inj h)
  · split at h
    · exact returns (Option.some.inj h)
    · exact returns (Option.some.inj h)

theorem sysPipeWrite_returns (h : σ.sysPipeWrite p = some (o, σ')) : ∃ v, o = .ret v := by
  unfold sysPipeWrite at h
  dsimp only at h
  split at h
  · exact returns (Option.some.inj h)
  split at h
  · exact returns (Option.some.inj h)
  split at h
  · exact returns (Option.some.inj h)
  split at h
  · exact returns (Option.some.inj h)
  · obtain ⟨bytes, -, h⟩ := Option.map_eq_some_iff.1 h
    exact returns h

theorem sysLockInit_returns (h : σ.sysLockInit p = some (o, σ')) : ∃ v, o = .ret v := by
  unfold sysLockInit at h
  dsimp only at h
  split at h
  · exact returns (Option.some.inj h)
  split at h
  · exact returns (Option.some.inj h)
  obtain ⟨τ, -, h⟩ := Option.bind_eq_some_iff.1 h
  split at h
  · exact returns (Option.some.inj h)
  · split at h
    · exact returns (Option.some.inj h)
    · exact returns (Option.some.inj h)

theorem sysCvarInit_returns (h : σ.sysCvarInit p = some (o, σ')) : ∃ v, o = .ret v := by
  unfold sysCvarInit at h
  dsimp only at h
  split at h
  · exact returns (Option.some.inj h)
  split at h
  · exact returns (Option.some.inj h)
  obtain ⟨τ, -, h⟩ := Option.bind_eq_some_iff.1 h
  split at h
  · exact returns (Option.some.inj h)
  split at h
  · split at h
    · exact returns (Option.some.inj h)
    · exact returns (Option.some.inj h)
  · exact absurd h (by simp)

theorem sysCvarSignal_returns (h : σ.sysCvarSignal p = some (o, σ')) : ∃ v, o = .ret v := by
  unfold sysCvarSignal at h
  dsimp only at h
  split at h
  · exact returns (Option.some.inj h)
  split at h
  · exact returns (Option.some.inj h)
  split at h
  · exact returns (Option.some.inj h)
  · split at h
    · exact returns (Option.some.inj h)
    · exact returns (Option.some.inj h)

theorem sysCvarBroadcast_returns (h : σ.sysCvarBroadcast p = some (o, σ')) : ∃ v, o = .ret v := by
  unfold sysCvarBroadcast at h
  dsimp only at h
  split at h
  · exact returns (Option.some.inj h)
  split at h
  · exact returns (Option.some.inj h)
  · exact returns (Option.some.inj h)

theorem sysReclaim_returns (h : σ.sysReclaim p = some (o, σ')) : ∃ v, o = .ret v := by
  unfold sysReclaim at h
  dsimp only at h
  split at h
  · exact returns (Option.some.inj h)
  split at h
  · exact returns (Option.some.inj h)
  split at h
  · exact returns (Option.some.inj h)
  · exact returns (Option.some.inj h)

theorem sysCustom0_returns (h : σ.sysCustom0 p = some (o, σ')) : ∃ v, o = .ret v := by
  unfold sysCustom0 at h
  dsimp only at h
  split at h
  · exact returns (Option.some.inj h)
  split at h
  · exact returns (Option.some.inj h)
  · exact returns (Option.some.inj h)

theorem sysCustom1_returns (h : σ.sysCustom1 p = some (o, σ')) : ∃ v, o = .ret v := by
  unfold sysCustom1 at h
  obtain ⟨a, -, h⟩ := Option.map_eq_some_iff.1 h
  dsimp only at h
  split at h
  · exact returns h
  · exact returns h

/-! ## All calls together -/

/-- The places where a call made with the registers `u` leaves its process. -/
def blockPlaces (u : UserContext) : Call → KernelContext → Prop
  | .wait => fun k => ∃ s i, k = .wait s i
  | .delay => fun k => k = .delay
  | .ttyRead => fun k => ∃ t, k = .ttyRead t
  | .ttyWrite => fun k =>
      ∃ r, k = .ttyBusy (u.regs 0).toInt r ∨ k = .ttySent (u.regs 0).toInt r
  | .pipeRead => fun k => ∃ a i b n, k = .pipeRead a i b n false
  | .lockAcquire => fun k => ∃ v a x e, k = .acquire v a x e
  | .cvarWait => fun k => (∃ a c x, k = .cvarWait a c x) ∨ ∃ v a x e, k = .acquire v a x e
  | .custom2 => fun k => k = .semWait
  | _ => fun _ => False

/-- A call other than Exit that switches leaves its process at a place of the call. -/
theorem sysCall_parks {c : Call} (hp : σ.activeProc = some p) (hc : c ≠ .exit)
    (h : σ.sysCall p c = some (o, σ')) : Parks (blockPlaces σ.uContext c) p o σ' := by
  have stays : View.contexts ∉ callViews c → (∃ v, o = .ret v) →
      Parks (blockPlaces σ.uContext c) p o σ' :=
    fun hvs ho => .of_returns ho ((sysCall_touches h).activeProc hvs hp)
  cases c with
  | brk => exact stays (by simp [callViews]) (sysBrk_returns h)
  | fork => exact .of_returns (sysFork_returns h) ((sysFork_activeProc h).trans hp)
  | exec => exact sysExec_parks hp h
  | exit => exact absurd rfl hc
  | wait => exact sysWait_parks hp h
  | delay => exact sysDelay_parks hp h
  | getpid => exact .ret hp h
  | ttyRead => exact sysTtyRead_parks hp h
  | ttyWrite => exact sysTtyWrite_parks hp h
  | pipeInit => exact stays (by simp [callViews]) (sysPipeInit_returns (p := p) h)
  | pipeRead => exact sysPipeRead_parks hp h
  | pipeWrite => exact stays (by simp [callViews]) (sysPipeWrite_returns h)
  | lockInit => exact stays (by simp [callViews]) (sysLockInit_returns (p := p) h)
  | lockAcquire => exact sysAcquire_parks hp (show σ.sysAcquire p none 0 = _ from h)
  | lockRelease => exact .ret ((sysRelease_touches σ p _).activeProc (by simp) hp) h
  | cvarInit => exact stays (by simp [callViews]) (sysCvarInit_returns (p := p) h)
  | cvarSignal => exact stays (by simp [callViews]) (sysCvarSignal_returns (p := p) h)
  | cvarBroadcast => exact stays (by simp [callViews]) (sysCvarBroadcast_returns (p := p) h)
  | cvarWait => exact sysCvarWait_parks hp h
  | reclaim => exact stays (by simp [callViews]) (sysReclaim_returns h)
  | custom0 => exact stays (by simp [callViews]) (sysCustom0_returns (p := p) h)
  | custom1 => exact stays (by simp [callViews]) (sysCustom1_returns (p := p) h)
  | custom2 => exact sysCustom2_parks hp h

/-- The places where a call that is continued leaves its process again. -/
def blocksAgain : KernelContext → KernelContext → Prop
  | .ttyBusy t _ | .ttySent t _ => fun k => ∃ r, k = .ttyBusy t r ∨ k = .ttySent t r
  | .pipeRead a i b n _ => fun k => ∃ e, k = .pipeRead a i b n e
  | .acquire v a x _ => fun k => ∃ e, k = .acquire v a x e
  | .cvarWait _ _ _ => fun k => ∃ v a x e, k = .acquire v a x e
  | _ => fun _ => False

theorem resumeCall_parks {k : KernelContext} (hp : σ.activeProc = some p)
    (h : σ.resumeCall p k = some (o, σ')) : Parks (blocksAgain k) p o σ' := by
  cases k with
  | kernelStart =>
      obtain ⟨rfl, rfl⟩ := Prod.mk.inj (Option.some.inj h)
      exact .of_user hp rfl
  | preempted =>
      obtain ⟨rfl, rfl⟩ := Prod.mk.inj (Option.some.inj h)
      exact .of_user hp rfl
  | wait s i => exact sysWaitResume_parks hp h
  | delay => exact .ret hp h
  | ttyRead t => exact sysTtyReadResume_parks hp h
  | ttyBusy t r => exact ttyWriteLoop_parks hp h
  | ttySent t r => exact ttyWriteLoop_parks hp h
  | pipeRead a i b n e => exact sysPipeReadResume_parks hp h
  | acquire v a x e => exact sysAcquireResume_parks hp h
  | cvarWait a c x => exact sysCvarWaitResume_parks hp h
  | semWait => exact .ret hp h

/-- After a clock tick the process is in user code, or it has been preempted. -/
theorem trapClockHdl_parks (hp : σ.activeProc = some p) (h : σ.trapClockHdl = some σ') :
    σ'.inUser p ∧ σ'.uContext = σ.uContext ∧ σ'.ptbr1 = σ.ptbr1 ∨
      (σ'.pcb p).kctxt = .preempted ∧ (σ'.pcb p).uctxt = σ.uContext ∧
        σ'.userMode = false := by
  obtain ⟨⟨s, τ⟩, hs, rfl⟩ := Option.map_eq_some_iff.1 h
  have hsleep := (updateSleepList_touches σ).activeProc (by simp) hp
  have hregs := (updateSleepList_touches σ).same .registers (by simp)
  unfold doScheduler at hs
  split at hs
  · have htouch := (readyInsert_touches σ.updateSleepList (σ.updateSleepList.activeProc.getD
      nullProc)).trans (nextReady_touches _)
    have hnext := htouch.activeProc (by simp) hsleep
    have hkept := hregs.trans (htouch.same .registers (by simp))
    dsimp only at hs
    generalize ((σ.updateSleepList.readyInsert _).2).nextReady = n at hs hnext hkept
    obtain ⟨next, τ'⟩ := n
    cases next with
    | none =>
        obtain ⟨rfl, rfl⟩ := Prod.mk.inj (Option.some.inj hs)
        exact .inl ⟨⟨hnext, rfl⟩, hkept⟩
    | some next =>
        obtain ⟨τ'', hτ, hs⟩ := Option.map_eq_some_iff.1 hs
        obtain ⟨rfl, rfl⟩ := Prod.mk.inj hs
        rw [hsleep] at hτ
        refine .inr ⟨contextSwitch_parks hτ, ?_, contextSwitch_user hτ⟩
        rw [contextSwitch_uctxt hτ, if_pos rfl]
        exact hkept.1
  · obtain ⟨rfl, rfl⟩ := Prod.mk.inj (Option.some.inj hs)
    exact .inl ⟨⟨hsleep, rfl⟩, hregs⟩

end Kernel

namespace Kernel

variable {σ σ' : Kernel} {l : Label} {p : Pid} {o : Outcome}

/-- After an Exit that told the parent nobody runs, or another process does in the
kernel. -/
theorem sysExit_active {status : Word} (hp : σ.activeProc = some p)
    (h : σ.sysExit p status = some (o, σ')) :
    (finish (o, σ')).activeProc = some p ∨ (finish (o, σ')).activeProc = none ∨
      (finish (o, σ')).userMode = false := by
  unfold sysExit at h
  obtain ⟨family, -, h⟩ := Option.bind_eq_some_iff.1 h
  obtain ⟨⟨rc, τ⟩, hτ, h⟩ := Option.bind_eq_some_iff.1 h
  have htell := ((setFamily_touches σ family).trans (tellParent_touches hτ)).activeProc
    (by simp) hp
  dsimp only at h
  split at h
  · obtain ⟨rfl, rfl⟩ := Prod.mk.inj (Option.some.inj h)
    exact .inl htell
  unfold block at h
  obtain ⟨⟨s, τ'⟩, hs, h⟩ := Option.bind_eq_some_iff.1 h
  cases s with
  | switched =>
      obtain ⟨rfl, rfl⟩ := Prod.mk.inj (Option.some.inj h)
      exact .inr (.inr (normalSchedule_user hs))
  | returned rc =>
      have hnone := ((normalSchedule_returned hs).same .contexts (by simp)).1
      dsimp only at h
      split at h
      · obtain ⟨rfl, rfl⟩ := Prod.mk.inj (Option.some.inj h)
        exact .inr (.inl hnone)
      · obtain ⟨rfl, rfl⟩ := Prod.mk.inj (Option.some.inj h)
        exact .inr (.inl hnone)

/-- A process that stops running leaves the machine in the kernel, unless nobody runs. -/
theorem step_active (h : Steps σ l σ') (hp : σ.activeProc = some p) :
    σ'.activeProc = some p ∨ σ'.activeProc = none ∨ σ'.userMode = false := by
  have hparks : ∀ {K : KernelContext → Prop} {o : Outcome} {τ : Kernel}, Parks K p o τ →
      (finish (o, τ)).activeProc = some p ∨ (finish (o, τ)).activeProc = none ∨
        (finish (o, τ)).userMode = false := by
    intro K o τ h
    cases o with
    | ret v => exact .inl (h.stays (by simp))
    | switched => exact .inr (.inr (h.kernel rfl))
    | restarted => exact .inl (h.stays (by simp))
  have hsame : ∀ {r}, σ.activeProc = some r → r = p := fun hr =>
    Option.some.inj (hr.symm.trans hp)
  cases h with
  | store hl hu h => exact .inl ((copyOut_touches h).activeProc (by simp) hp)
  | @call u r c o τ hl hu hv hr hc h =>
      obtain rfl := hsame hr
      by_cases he : c = .exit
      · subst he
        exact sysExit_active (σ := (σ.begin l).enter u) hp h
      · exact hparks (sysCall_parks (σ := (σ.begin l).enter u) hp he h)
  | @clock u τ hl hu hv h =>
      rcases trapClockHdl_parks (σ := (σ.begin l).enter u) hp h with hin | hk
      · exact .inl hin.1.1
      · exact .inr (.inr hk.2.2)
  | @abort u r o τ hl hu hv hr h =>
      obtain rfl := hsame hr
      exact sysExit_active (σ := (σ.begin l).enter u) hp h
  | grow hl hu hv hr hfit h => exact .inl ((growUserStack_touches h).activeProc (by simp) hp)
  | receive hl hu hv h => exact .inl ((trapTtyReceiveHdl_touches h).activeProc (by simp) hp)
  | transmit hl hu hv h => exact .inl ((trapTtyTransmitHdl_touches h).activeProc (by simp) hp)
  | disk => exact .inl hp
  | @resume r o τ hl hu hr h =>
      obtain rfl := hsame hr
      exact hparks (resumeCall_parks (σ := (σ.begin l).restore r) hp h)

end Kernel

end Yalnix
