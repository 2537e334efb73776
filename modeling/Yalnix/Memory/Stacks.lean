import Yalnix.Memory.Space

/-!
# Who gets a kernel stack

Two operations make kernel stacks: Fork, for the child, and a context switch, for a process
that has never run. A step that is no Fork thus makes one for no process but the one that is
active afterwards.
-/

namespace Yalnix

namespace Kernel

variable {σ σ₁ σ' : Kernel} {p q : Pid} {o : Outcome} {l : Label}

theorem space_of_ret {α : Type} {x y : α} (he : some (x, σ₁) = some (y, σ'))
    (h : σ₁.space = σ.space) : σ'.space = σ.space := by
  obtain ⟨-, rfl⟩ := Prod.mk.inj (Option.some.inj he)
  exact h

/-- Nobody but the process that is active afterwards has got another kernel stack. -/
def Hands (σ σ' : Kernel) : Prop := ∀ q, σ'.activeProc = some q ∨ σ'.stack q = σ.stack q

namespace Hands

theorem of_stack (h : ∀ q, σ'.stack q = σ.stack q) : Hands σ σ' := fun q => Or.inr (h q)

theorem of_space (h : σ'.space = σ.space) : Hands σ σ' := of_stack fun q => by
  unfold stack
  rw [h]

theorem behind (h : ∀ q, σ₁.stack q = σ.stack q) (h' : Hands σ₁ σ') : Hands σ σ' := by
  intro q
  rw [← h q]
  exact h' q

/-- What comes before a context switch and leaves the address spaces alone does not matter. -/
theorem after (h : σ₁.space = σ.space) (h' : Hands σ₁ σ') : Hands σ σ' := by
  refine behind (fun q => ?_) h'
  unfold stack
  rw [h]

/-- The result of a call that has not switched. -/
theorem ret {α : Type} {x y : α} (he : some (x, σ₁) = some (y, σ')) (h : σ₁.space = σ.space) :
    Hands σ σ' := of_space (space_of_ret he h)

/-- The end of a step. -/
theorem finish (h : Hands σ σ₁) (o : Outcome) : Hands σ (finish (o, σ₁)) := by
  cases o
  · exact h
  · exact h
  · exact h

end Hands

/-! ## Queues

Putting a process into a queue takes memory, and no address space is written. -/

theorem waitInsert_space (σ : Kernel) (p : Pid) : (σ.waitInsert p).2.space = σ.space := rfl

theorem pipeWaitInsert_space (σ : Kernel) (a : ℕ) (p : Pid) :
    (σ.pipeWaitInsert a p).space = σ.space := rfl

theorem lockWaitInsert_space (σ : Kernel) (a : ℕ) (p : Pid) :
    (σ.lockWaitInsert a p).space = σ.space := rfl

theorem cvarWaitInsert_space (σ : Kernel) (a : ℕ) (p : Pid) :
    (σ.cvarWaitInsert a p).space = σ.space := rfl

theorem blockWriter_space (σ : Kernel) (p : Pid) : (σ.blockWriter p).2.space = σ.space := rfl

/-! ## Scheduling -/

theorem nextReady_space (σ : Kernel) : σ.nextReady.2.space = σ.space := by
  unfold nextReady
  cases listRemove σ.readyQueue 1 with
  | none => rfl
  | some r =>
      obtain ⟨next, l⟩ := r
      dsimp only
      split
      · cases listRemove (readyInsert { σ with readyQueue := l } next).2.readyQueue 1 with
        | none => rfl
        | some r => rfl
      · rfl

theorem contextSwitch_hands {old : Option Pid} {new : Pid} {k : KernelContext}
    (h : σ.contextSwitch old new k = some σ') : Hands σ σ' := by
  unfold contextSwitch at h
  split at h
  · exact absurd h (by simp)
  obtain ⟨τ, hτ, rfl⟩ := Option.map_eq_some_iff.1 h
  have hsave : (saveUser { σ with
      activeProc := some new, dispatched := σ.dispatched ++ [new] } old).space = σ.space ∧
        (saveUser { σ with
          activeProc := some new, dispatched := σ.dispatched ++ [new] } old).activeProc =
            some new := by
    cases old
    · exact ⟨rfl, rfl⟩
    · exact ⟨rfl, rfl⟩
  have hend : (τ.saveKernel k old).activeProc = τ.activeProc ∧
      (τ.saveKernel k old).space = τ.space := by
    cases old
    · exact ⟨rfl, rfl⟩
    · exact ⟨rfl, rfl⟩
  intro q
  change (τ.saveKernel k old).activeProc = some q ∨
    (((τ.saveKernel k old).space q).kStackPt 0).pfn = σ.stack q
  rw [hend.1, hend.2]
  split at hτ
  · obtain ⟨r, -, rfl⟩ := Option.map_eq_some_iff.1 hτ
    dsimp only
    by_cases hq : q = new
    · exact Or.inl (hsave.2.trans (congrArg some hq.symm))
    · refine Or.inr ?_
      rw [Function.update_of_ne hq, hsave.1]
      rfl
  · obtain rfl := Option.some.inj hτ
    refine Or.inr ?_
    rw [hsave.1]
    rfl

theorem normalSchedule_hands {k : KernelContext} {r : Sched × Kernel}
    (h : σ.normalSchedule k = some r) : Hands σ r.2 ∧ ∀ rc, r.1 = .returned rc →
      r.2.space = σ.space := by
  unfold normalSchedule at h
  split at h
  · have hnext := nextReady_space σ
    cases hn : σ.nextReady with
    | mk next τ =>
        rw [hn] at h hnext
        cases next with
        | none =>
            obtain rfl := Option.some.inj h
            exact ⟨.of_space hnext, fun _ _ => hnext⟩
        | some next =>
            obtain ⟨τ', hτ, rfl⟩ := Option.map_eq_some_iff.1 h
            exact ⟨.after hnext (contextSwitch_hands hτ), fun _ he => absurd he (by simp)⟩
  · obtain rfl := Option.some.inj h
    exact ⟨.of_space rfl, fun _ _ => rfl⟩

theorem block_hands {k : KernelContext} {after : Kernel → Option (Outcome × Kernel)}
    (hafter : ∀ τ o τ', after τ = some (o, τ') → Hands τ τ')
    (h : σ.block k after = some (o, σ')) : Hands σ σ' := by
  unfold block at h
  obtain ⟨⟨s, τ⟩, hs, h⟩ := Option.bind_eq_some_iff.1 h
  obtain ⟨hτ, hspace⟩ := normalSchedule_hands hs
  cases s with
  | switched =>
      obtain ⟨-, rfl⟩ := Prod.mk.inj (Option.some.inj h)
      exact hτ
  | returned rc =>
      dsimp only at h
      split at h
      · exact .ret h (hspace rc rfl)
      · exact .after (hspace rc rfl) (hafter _ _ _ h)

theorem doScheduler_hands {r : Sched × Kernel} (h : σ.doScheduler = some r) : Hands σ r.2 := by
  unfold doScheduler at h
  split at h
  · dsimp only at h
    have hnext : ((σ.readyInsert (σ.activeProc.getD nullProc)).2).nextReady.2.space = σ.space :=
      nextReady_space _
    cases hn : ((σ.readyInsert (σ.activeProc.getD nullProc)).2).nextReady with
    | mk next τ =>
        rw [hn] at h hnext
        cases next with
        | none =>
            obtain rfl := Option.some.inj h
            exact .of_space hnext
        | some next =>
            obtain ⟨τ', hτ, rfl⟩ := Option.map_eq_some_iff.1 h
            exact .after hnext (contextSwitch_hands hτ)
  · obtain rfl := Option.some.inj h
    exact .of_space rfl

theorem sleepLoop_space (l : List SleepInfo) (i : ℕ) (σ : Kernel) :
    (sleepLoop l i σ).space = σ.space := by
  induction l generalizing i σ with
  | nil => rfl
  | cons s l ih =>
      unfold sleepLoop
      dsimp only
      split
      · split
        · rfl
        · exact ih _ _
      · exact ih _ _

theorem trapClockHdl_hands (h : σ.trapClockHdl = some σ') : Hands σ σ' := by
  obtain ⟨⟨s, τ⟩, hs, rfl⟩ := Option.map_eq_some_iff.1 h
  have hτ := Hands.after (sleepLoop_space σ.sleepList 1 σ) (doScheduler_hands hs)
  cases s with
  | switched => exact hτ
  | returned rc => exact hτ

/-! ## Calls for processes -/

theorem storeInt_space {a w : Word} (h : σ.storeInt a w = some σ') : σ'.space = σ.space :=
  (storeInt_stores h).space

theorem scanDead_hands {statusPtr : Word} {i : ℕ} {otherwise : Option (Outcome × Kernel)}
    (hother : otherwise = some (o, σ') → Hands σ σ')
    (h : σ.scanDead p statusPtr i otherwise = some (o, σ')) : Hands σ σ' := by
  unfold scanDead at h
  split at h
  · exact hother h
  split at h
  · obtain ⟨τ, hτ, h⟩ := Option.map_eq_some_iff.1 h
    obtain ⟨-, rfl⟩ := Prod.mk.inj h
    have hspace := storeInt_space hτ
    exact .of_space hspace
  · exact absurd h (by simp)

theorem sysWaitResume_hands {statusPtr : Word} {i : ℕ}
    (h : σ.sysWaitResume p statusPtr i = some (o, σ')) : Hands σ σ' :=
  scanDead_hands (fun h => .ret h rfl) h

theorem sysWait_hands (h : σ.sysWait p = some (o, σ')) : Hands σ σ' := by
  unfold sysWait at h
  dsimp only at h
  split at h
  · exact .ret h rfl
  obtain ⟨_, -, h⟩ := Option.bind_eq_some_iff.1 h
  split at h
  · exact .ret h rfl
  refine scanDead_hands (fun h => ?_) h
  exact .after (waitInsert_space σ p) (block_hands (fun _ _ _ h => sysWaitResume_hands h) h)

theorem tellParent_space {status : Word} {rc : Int} (h : σ.tellParent p status = some (rc, σ')) :
    σ'.space = σ.space := by
  have hdead : (σ.insertDeadList (σ.family p).ppid p status).2.space = σ.space := by
    unfold insertDeadList
    dsimp only
    split
    · rfl
    · rfl
  unfold tellParent at h
  dsimp only at h
  split at h
  · exact space_of_ret h rfl
  split at h
  · exact space_of_ret h hdead
  · obtain ⟨p₁, -, h⟩ := Option.map_eq_some_iff.1 h
    obtain ⟨-, rfl⟩ := Prod.mk.inj h
    exact hdead

theorem wakeParent_space (σ : Kernel) (ppid : Pid) : (σ.wakeParent ppid).space = σ.space := by
  unfold wakeParent
  split
  · rfl
  · rfl

theorem sysExit_hands {status : Word} (h : σ.sysExit p status = some (o, σ')) : Hands σ σ' := by
  unfold sysExit at h
  obtain ⟨family, -, h⟩ := Option.bind_eq_some_iff.1 h
  obtain ⟨⟨rc, τ⟩, hτ, h⟩ := Option.bind_eq_some_iff.1 h
  have htell : τ.space = σ.space := by
    have hspace := tellParent_space hτ
    exact hspace
  dsimp only at h
  split at h
  · exact .ret h htell
  refine .after htell (.behind (freeSpace_stack τ p) ?_)
  refine .after (wakeParent_space _ (τ.family p).ppid) ?_
  have hblock := block_hands (fun _ _ _ h => .ret h rfl) h
  exact hblock

theorem insertSleepList_space (σ : Kernel) (p : Pid) (clockTicks : Int) :
    (σ.insertSleepList p clockTicks).2.space = σ.space := by
  unfold insertSleepList
  dsimp only
  split
  · rfl
  · rfl

theorem sysDelay_hands (h : σ.sysDelay p = some (o, σ')) : Hands σ σ' := by
  unfold sysDelay at h
  dsimp only at h
  split at h
  · exact .ret h rfl
  split at h
  · exact .ret h rfl
  have hsleep := insertSleepList_space σ p (σ.reg 0).toInt
  split at h
  · exact .ret h hsleep
  · exact .after hsleep (block_hands (fun _ _ _ h => .ret h rfl) h)

theorem loadProgram_hands {file : Option Exe} {args : Option (List (List Byte))} {rc : Int}
    (h : σ.loadProgram file args p = some (rc, σ')) (q : Pid) : σ'.stack q = σ.stack q := by
  rcases loadProgram_space h with ⟨hspace, -, -⟩ | ⟨li, -, av, -, b, τ, -, hmap, -, hspace, -⟩
  · unfold stack
    rw [hspace]
  have hτ : τ.stack q = σ.stack q := mapProgram_stack hmap q
  rcases hspace with hspace | hspace
  · rw [← hτ]
    unfold stack
    rw [hspace]
  · rw [← hτ, ← protect_stack τ li p q]
    unfold stack
    rw [hspace]

theorem sysExec_hands (h : σ.sysExec p = some (o, σ')) : Hands σ σ' := by
  rcases sysExec_space h with ⟨-, rfl⟩ | ⟨rc, τ, hload, -, hspace, -⟩
  · exact .of_space rfl
  · refine .of_stack fun q => ?_
    rw [← loadProgram_hands hload q]
    unfold stack
    rw [hspace]

/-! ## Terminals -/

theorem sysTtyReadResume_hands {ttyId : Int} (h : σ.sysTtyReadResume p ttyId = some (o, σ')) :
    Hands σ σ' := by
  unfold sysTtyReadResume at h
  split at h
  · obtain ⟨τ, hτ, h⟩ := Option.map_eq_some_iff.1 h
    obtain ⟨-, rfl⟩ := Prod.mk.inj h
    exact .of_space (copyOut_stores hτ).space
  · exact absurd h (by simp)

theorem sysTtyRead_hands (h : σ.sysTtyRead p = some (o, σ')) : Hands σ σ' := by
  unfold sysTtyRead at h
  dsimp only at h
  split at h
  · exact .ret h rfl
  split at h
  · exact .ret h rfl
  split at h
  · exact .ret h rfl
  split at h
  · exact .ret h rfl
  split at h
  · exact .ret h rfl
  · have hblock := block_hands (fun _ _ _ h => sysTtyReadResume_hands h) h
    exact hblock

theorem ttyWriteLoop_hands {n : ℕ} {ttyId remainBytes : Int}
    (h : ttyWriteLoop n σ p ttyId remainBytes = some (o, σ')) : Hands σ σ' := by
  induction n generalizing σ σ' o remainBytes with
  | zero => exact absurd h (by simp [ttyWriteLoop])
  | succ n ih =>
      unfold ttyWriteLoop at h
      dsimp only at h
      split at h
      · exact .ret h rfl
      split at h
      swap
      · exact absurd h (by simp)
      split at h
      · split at h
        · exact .ret h rfl
        · exact .after (blockWriter_space σ p) (block_hands (fun _ _ _ h => ih h) h)
      · obtain ⟨bytes, -, h⟩ := Option.bind_eq_some_iff.1 h
        split at h
        · exact .ret h rfl
        · have hblock := block_hands (fun _ _ _ h => ih h) h
          exact hblock

theorem sysTtyWrite_hands (h : σ.sysTtyWrite p = some (o, σ')) : Hands σ σ' := by
  unfold sysTtyWrite at h
  dsimp only at h
  split at h
  · exact .ret h rfl
  split at h
  · exact .ret h rfl
  split at h
  · exact .ret h rfl
  split at h
  · exact .ret h rfl
  · exact ttyWriteLoop_hands h

theorem trapTtyReceiveHdl_space (h : σ.trapTtyReceiveHdl = some σ') : σ'.space = σ.space := by
  unfold trapTtyReceiveHdl at h
  dsimp only at h
  split at h
  swap
  · exact absurd h (by simp)
  split at h
  · obtain rfl := Option.some.inj h
    rfl
  split at h
  · obtain rfl := Option.some.inj h
    rfl
  · exact absurd h (by simp)

theorem trapTtyTransmitHdl_space (h : σ.trapTtyTransmitHdl = some σ') :
    σ'.space = σ.space := by
  unfold trapTtyTransmitHdl at h
  dsimp only at h
  split at h
  swap
  · exact absurd h (by simp)
  split at h
  · obtain rfl := Option.some.inj h
    rfl
  · obtain rfl := Option.some.inj h
    rfl

/-! ## Objects -/

theorem sysPipeInit_space (h : σ.sysPipeInit p = some (o, σ')) : σ'.space = σ.space := by
  unfold sysPipeInit at h
  dsimp only at h
  split at h
  · exact space_of_ret h rfl
  split at h
  · exact space_of_ret h rfl
  split at h
  · exact space_of_ret h rfl
  obtain ⟨τ, hτ, h⟩ := Option.bind_eq_some_iff.1 h
  have hstore := storeInt_space hτ
  split at h
  · exact space_of_ret h hstore
  split at h
  · exact space_of_ret h hstore
  · exact space_of_ret h hstore

theorem wakePipe_space (σ : Kernel) (a : ℕ) : (σ.wakePipe a).space = σ.space := by
  unfold wakePipe
  dsimp only
  split
  · rfl
  · rfl

theorem takeBytes_space {a : ℕ} {buf : Word} {len : Int}
    (h : σ.takeBytes a buf len = some (o, σ')) : σ'.space = σ.space := by
  unfold takeBytes at h
  obtain ⟨τ, hτ, h⟩ := Option.bind_eq_some_iff.1 h
  have hstore : τ.space = σ.space := (copyOut_stores hτ).space
  dsimp only at h
  split at h
  · exact space_of_ret h ((wakePipe_space _ a).trans hstore)
  · exact absurd h (by simp)

theorem pipeReadLoop_hands {a : ℕ} {pipeId : Int} {buf : Word} {len : Int} {exist : Bool}
    (h : σ.pipeReadLoop p a pipeId buf len exist = some (o, σ')) : Hands σ σ' := by
  unfold pipeReadLoop at h
  split at h
  · split at h
    · exact .after (pipeWaitInsert_space σ a p)
        (block_hands (fun _ _ _ h => absurd h (by simp)) h)
    · exact .of_space (takeBytes_space h)
  · exact absurd h (by simp)

theorem sysPipeReadResume_hands {a : ℕ} {pipeId : Int} {buf : Word} {len : Int} {exist : Bool}
    (h : σ.sysPipeReadResume p a pipeId buf len exist = some (o, σ')) : Hands σ σ' := by
  unfold sysPipeReadResume at h
  dsimp only at h
  split at h
  · exact pipeReadLoop_hands h
  · exact .ret h rfl

theorem sysPipeRead_hands (h : σ.sysPipeRead p = some (o, σ')) : Hands σ σ' := by
  unfold sysPipeRead at h
  dsimp only at h
  split at h
  · exact .ret h rfl
  split at h
  · exact .ret h rfl
  split at h
  · exact .ret h rfl
  split at h
  · exact .ret h rfl
  · exact pipeReadLoop_hands h

theorem sysPipeWrite_space (h : σ.sysPipeWrite p = some (o, σ')) : σ'.space = σ.space := by
  unfold sysPipeWrite at h
  dsimp only at h
  split at h
  · exact space_of_ret h rfl
  split at h
  · exact space_of_ret h rfl
  split at h
  · exact space_of_ret h rfl
  split at h
  · exact space_of_ret h rfl
  · rename_i a _
    obtain ⟨bytes, -, h⟩ := Option.map_eq_some_iff.1 h
    obtain ⟨-, rfl⟩ := Prod.mk.inj h
    exact wakePipe_space _ a

theorem sysLockInit_space (h : σ.sysLockInit p = some (o, σ')) : σ'.space = σ.space := by
  unfold sysLockInit at h
  dsimp only at h
  split at h
  · exact space_of_ret h rfl
  split at h
  · exact space_of_ret h rfl
  obtain ⟨τ, hτ, h⟩ := Option.bind_eq_some_iff.1 h
  have hstore := storeInt_space hτ
  split at h
  · exact space_of_ret h hstore
  split at h
  · exact space_of_ret h hstore
  · exact space_of_ret h hstore

theorem acquireLoop_hands {via : Option Int} {a : ℕ} {lockId : Int} {exist : Bool}
    (h : σ.acquireLoop p via a lockId exist = some (o, σ')) : Hands σ σ' := by
  unfold acquireLoop at h
  dsimp only at h
  split at h
  · split at h
    · exact .after (lockWaitInsert_space σ a p)
        (block_hands (fun _ _ _ h => absurd h (by simp)) h)
    · exact .ret h rfl
  · exact absurd h (by simp)

theorem sysAcquireResume_hands {via : Option Int} {a : ℕ} {lockId : Int} {exist : Bool}
    (h : σ.sysAcquireResume p via a lockId exist = some (o, σ')) : Hands σ σ' := by
  unfold sysAcquireResume at h
  dsimp only at h
  split at h
  · exact acquireLoop_hands h
  · exact .ret h rfl

theorem sysAcquire_hands {via : Option Int} {id : Int}
    (h : σ.sysAcquire p via id = some (o, σ')) : Hands σ σ' := by
  unfold sysAcquire at h
  dsimp only at h
  split at h
  · exact .ret h rfl
  split at h
  · exact .ret h rfl
  · exact acquireLoop_hands h

theorem sysRelease_space (σ : Kernel) (p : Pid) (lockId : Int) :
    (σ.sysRelease p lockId).2.space = σ.space := by
  unfold sysRelease
  split
  · rfl
  dsimp only
  split
  · rfl
  · rfl

theorem sysCvarInit_space (h : σ.sysCvarInit p = some (o, σ')) : σ'.space = σ.space := by
  unfold sysCvarInit at h
  dsimp only at h
  split at h
  · exact space_of_ret h rfl
  split at h
  · exact space_of_ret h rfl
  obtain ⟨τ, hτ, h⟩ := Option.bind_eq_some_iff.1 h
  have hstore := storeInt_space hτ
  split at h
  · exact space_of_ret h hstore
  split at h
  swap
  · exact absurd h (by simp)
  split at h
  · exact space_of_ret h hstore
  · exact space_of_ret h hstore

theorem sysCvarSignal_space (h : σ.sysCvarSignal p = some (o, σ')) : σ'.space = σ.space := by
  unfold sysCvarSignal at h
  dsimp only at h
  split at h
  · exact space_of_ret h rfl
  split at h
  · exact space_of_ret h rfl
  split at h
  · exact space_of_ret h rfl
  split at h
  · exact space_of_ret h rfl
  · exact space_of_ret h rfl

theorem wakeAll_space (l : List Pid) (σ : Kernel) : (wakeAll l σ).2.2.space = σ.space := by
  induction l generalizing σ with
  | nil => rfl
  | cons q l ih =>
      unfold wakeAll
      dsimp only
      split
      · rfl
      · exact ih _

theorem sysCvarBroadcast_space (h : σ.sysCvarBroadcast p = some (o, σ')) :
    σ'.space = σ.space := by
  unfold sysCvarBroadcast at h
  dsimp only at h
  split at h
  · exact space_of_ret h rfl
  split at h
  · exact space_of_ret h rfl
  · exact space_of_ret h (wakeAll_space _ σ)

theorem sysCvarWaitResume_hands {cvarId lockId : Int}
    (h : σ.sysCvarWaitResume p cvarId lockId = some (o, σ')) : Hands σ σ' := by
  unfold sysCvarWaitResume at h
  split at h
  · exact sysAcquire_hands h
  · exact .ret h rfl

theorem sysCvarWait_hands (h : σ.sysCvarWait p = some (o, σ')) : Hands σ σ' := by
  unfold sysCvarWait at h
  dsimp only at h
  have hrel := sysRelease_space σ p (σ.reg 1).toInt
  generalize σ.sysRelease p (σ.reg 1).toInt = r at h hrel
  split at h
  · exact .ret h hrel
  split at h
  · exact .ret h hrel
  rename_i a _
  exact .after hrel (.after (cvarWaitInsert_space r.2 a p)
    (block_hands (fun _ _ _ h => sysCvarWaitResume_hands h) h))

theorem wakeWaiting_space (j : ℕ) (l : List Pid) (σ : Kernel) :
    (wakeWaiting j l σ).2.space = σ.space := by
  induction l generalizing j σ with
  | nil => rfl
  | cons q l ih =>
      unfold wakeWaiting
      split
      · exact ih _ _
      · rfl

theorem destroy_space (σ : Kernel) (p : Pid) (id : Int) (type : Kind) :
    (σ.destroy p id type).2.space = σ.space := by
  cases type with
  | pipe =>
      change (σ.destroyPipeInfo id).2.space = _
      unfold destroyPipeInfo
      split
      · rfl
      split
      · rfl
      · exact wakeWaiting_space 1 _ σ
  | lock =>
      change (σ.destroyLockInfo p id).2.space = _
      unfold destroyLockInfo
      split
      · rfl
      split
      · rfl
      · exact wakeWaiting_space 1 _ σ
  | cvar =>
      change (σ.destroyCvarInfo id).2.space = _
      unfold destroyCvarInfo
      split
      · rfl
      split
      · rfl
      · exact wakeWaiting_space 1 _ σ

theorem sysReclaim_space (h : σ.sysReclaim p = some (o, σ')) : σ'.space = σ.space := by
  unfold sysReclaim at h
  dsimp only at h
  split at h
  · exact space_of_ret h rfl
  split at h
  · exact space_of_ret h rfl
  split at h
  · exact space_of_ret h (destroy_space σ p _ _)
  · exact space_of_ret h (destroy_space σ p _ _)

theorem sysCustom0_space (h : σ.sysCustom0 p = some (o, σ')) : σ'.space = σ.space := by
  unfold sysCustom0 at h
  dsimp only at h
  split at h
  · exact space_of_ret h rfl
  split at h
  · exact space_of_ret h rfl
  · obtain ⟨-, rfl⟩ := Prod.mk.inj (Option.some.inj h)
    split
    · rfl
    · rfl

theorem sysCustom1_space (h : σ.sysCustom1 p = some (o, σ')) : σ'.space = σ.space := by
  unfold sysCustom1 at h
  obtain ⟨a, -, h⟩ := Option.map_eq_some_iff.1 h
  dsimp only at h
  split at h
  · obtain ⟨-, rfl⟩ := Prod.mk.inj h
    rfl
  · obtain ⟨-, rfl⟩ := Prod.mk.inj h
    rfl

theorem sysCustom2_hands (h : σ.sysCustom2 p = some (o, σ')) : Hands σ σ' := by
  unfold sysCustom2 at h
  obtain ⟨a, -, h⟩ := Option.bind_eq_some_iff.1 h
  dsimp only at h
  split at h
  · have hblock := block_hands (fun _ _ _ h => .ret h rfl) h
    exact hblock
  · exact .ret h rfl

/-! ## Steps -/

theorem sysCall_hands {c : Call} (hc : c ≠ .fork) (h : σ.sysCall p c = some (o, σ')) :
    Hands σ σ' := by
  cases c with
  | fork => exact absurd rfl hc
  | brk => exact .of_stack (sysBrk_stack h)
  | exec => exact sysExec_hands h
  | exit => exact sysExit_hands h
  | wait => exact sysWait_hands h
  | delay => exact sysDelay_hands h
  | getpid => exact .ret h rfl
  | ttyRead => exact sysTtyRead_hands h
  | ttyWrite => exact sysTtyWrite_hands h
  | pipeInit => exact .of_space (sysPipeInit_space (p := p) h)
  | pipeRead => exact sysPipeRead_hands h
  | pipeWrite => exact .of_space (sysPipeWrite_space h)
  | lockInit => exact .of_space (sysLockInit_space (p := p) h)
  | lockAcquire =>
      have hacquire : σ.sysAcquire p none 0 = some (o, σ') := h
      exact sysAcquire_hands hacquire
  | lockRelease => exact .ret h (sysRelease_space σ p (σ.reg 0).toInt)
  | cvarInit => exact .of_space (sysCvarInit_space (p := p) h)
  | cvarSignal => exact .of_space (sysCvarSignal_space (p := p) h)
  | cvarBroadcast => exact .of_space (sysCvarBroadcast_space (p := p) h)
  | cvarWait => exact sysCvarWait_hands h
  | reclaim => exact .of_space (sysReclaim_space h)
  | custom0 => exact .of_space (sysCustom0_space (p := p) h)
  | custom1 => exact .of_space (sysCustom1_space (p := p) h)
  | custom2 => exact sysCustom2_hands (p := p) h

theorem resumeCall_hands {k : KernelContext} (h : σ.resumeCall p k = some (o, σ')) :
    Hands σ σ' := by
  cases k with
  | kernelStart => exact .ret h rfl
  | preempted => exact .ret h rfl
  | wait s i => exact sysWaitResume_hands h
  | delay => exact .ret h rfl
  | ttyRead t => exact sysTtyReadResume_hands h
  | ttyBusy t r => exact ttyWriteLoop_hands h
  | ttySent t r => exact ttyWriteLoop_hands h
  | pipeRead a i b n e => exact sysPipeReadResume_hands h
  | acquire v a x e => exact sysAcquireResume_hands h
  | cvarWait a c x => exact sysCvarWaitResume_hands h
  | semWait => exact .ret h rfl

/-- A step that is no Fork makes no kernel stack but that of the process active afterwards. -/
theorem step_hands (h : Steps σ l σ') (hfork : l.call ≠ some .fork) : Hands σ σ' := by
  cases h with
  | store hl hu h => exact .of_space (copyOut_stores h).space
  | @call u p c o τ hl hu hv hp hc h =>
      have hne : c ≠ .fork := by
        rintro rfl
        exact hfork (by simp [Label.call, hl, hv, hc])
      have hcall := sysCall_hands hne h
      exact Hands.finish hcall o
  | clock hl hu hv h =>
      have hclock := trapClockHdl_hands h
      exact hclock
  | @abort u p o τ hl hu hv hp h =>
      have hexit := sysExit_hands h
      exact Hands.finish hexit o
  | grow hl hu hv hp hfit h =>
      have hstack := growUserStack_stack h
      exact .of_stack hstack
  | receive hl hu hv h =>
      have hspace := trapTtyReceiveHdl_space h
      exact .of_space hspace
  | transmit hl hu hv h =>
      have hspace := trapTtyTransmitHdl_space h
      exact .of_space hspace
  | disk hl hu hv => exact .of_space rfl
  | @resume p o τ hl hu hp h =>
      have hcall := resumeCall_hands h
      exact Hands.finish hcall o

end Kernel

end Yalnix
