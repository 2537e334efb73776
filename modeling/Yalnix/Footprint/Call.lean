import Yalnix.Footprint.Primitive

/-!
# Footprints of the kernel calls

One lemma for each kernel call and each part of one, with the views that it
touches.
-/

namespace Yalnix

namespace Kernel

variable {σ σ' : Kernel} {p : Pid} {o : Outcome}

/-! ## Memory and processes -/

theorem setMap_touches (σ : Kernel) (proc : Pid) (r : Bool × Mem × PageTable) (x : Space) :
    Touches [.frames] σ (σ.setMap proc r x) := by
  refine ⟨fun v hv => ?_⟩
  cases v with
  | frames => simp at hv
  | _ => simp [View.Same, queued, blocked, setMap]

theorem sysBrk_touches (h : σ.sysBrk p = some (o, σ')) : Touches [.frames] σ σ' := by
  obtain ⟨r, -, h⟩ := Option.map_eq_some_iff.1 h
  split at h
  · obtain ⟨-, rfl⟩ := Prod.mk.inj h
    exact setMap_touches ..
  · obtain ⟨-, rfl⟩ := Prod.mk.inj h
    exact setMap_touches ..

theorem mapProgram_touches {li : Exe} {n : ℕ} {ok : Bool}
    (h : σ.mapProgram li n p = some (ok, σ')) : Touches [.frames] σ σ' := by
  obtain ⟨text, -, h⟩ := Option.bind_eq_some_iff.1 h
  split at h
  · exact .ret (setMap_touches ..) h
  · obtain ⟨data, -, h⟩ := Option.bind_eq_some_iff.1 h
    split at h
    · exact .ret (setMap_touches ..) h
    · obtain ⟨stack, -, h⟩ := Option.bind_eq_some_iff.1 h
      split at h
      · exact .ret (setMap_touches ..) h
      · exact .ret (setMap_touches ..) h

theorem readSegment_touches (σ : Kernel) (a : Word) (size : ℕ) (bs : List Byte) :
    Touches [.memory] σ (σ.readSegment a size bs).2 := by
  unfold readSegment
  cases h : σ.copyOut a (bs.take size) with
  | none => exact .refl _ σ
  | some τ => exact copyOut_touches h

theorem setSpace_touches (σ : Kernel) (p : Pid) (x : Space) :
    Touches [.frames] σ (σ.setSpace p x) := by
  refine ⟨fun v hv => ?_⟩
  cases v with
  | frames => simp at hv
  | _ => simp [View.Same, queued, blocked, setSpace]

theorem protect_touches (σ : Kernel) (li : Exe) (p : Pid) :
    Touches [.frames] σ (σ.protect li p) := setSpace_touches ..

theorem setPc_touches (σ : Kernel) (p : Pid) (pc : Word) : Touches [.users] σ (σ.setPc p pc) :=
  setPcb_touches_users rfl rfl rfl rfl rfl

theorem setSp_touches (σ : Kernel) (p : Pid) (sp : Word) : Touches [.users] σ (σ.setSp p sp) :=
  setPcb_touches_users rfl rfl rfl rfl rfl

theorem copyArgs_touches {cpp cp : Word} {args : List (List Byte)}
    (h : σ.copyArgs cpp cp args = some σ') : Touches [.memory] σ σ' := by
  induction args generalizing σ cpp cp with
  | nil =>
      obtain ⟨τ, hτ, h⟩ := Option.bind_eq_some_iff.1 h
      exact (storeInt_touches hτ).trans (storeInt_touches h)
  | cons s args ih =>
      obtain ⟨τ, hτ, h⟩ := Option.bind_eq_some_iff.1 h
      obtain ⟨τ', hτ', h⟩ := Option.bind_eq_some_iff.1 h
      exact ((storeInt_touches hτ).trans (copyOut_touches hτ')).trans (ih h)

theorem buildArgs_touches {args : List (List Byte)} (h : σ.buildArgs args = some σ') :
    Touches [.memory] σ σ' := by
  unfold buildArgs at h
  obtain ⟨τ, hτ, h⟩ := Option.bind_eq_some_iff.1 h
  obtain ⟨τ', hτ', h⟩ := Option.bind_eq_some_iff.1 h
  exact ((copyOut_touches hτ).trans (storeInt_touches hτ')).trans (copyArgs_touches h)

theorem fillProgram_touches {li : Exe} {args : List (List Byte)} {rc : Int}
    (h : σ.fillProgram li args p = some (rc, σ')) : Touches [.frames, .users, .memory] σ σ' := by
  have htext := readSegment_touches σ li.tVaddr li.textSize li.text
  unfold fillProgram at h
  dsimp only at h
  generalize σ.readSegment li.tVaddr li.textSize li.text = text at h htext
  split at h
  · exact .ret (htext.mono (by simp)) h
  · have hdata := readSegment_touches text.2 li.idVaddr li.dataSize li.data
    generalize text.2.readSegment li.idVaddr li.dataSize li.data = data at h hdata
    split at h
    · exact .ret ((htext.trans hdata).mono (by simp)) h
    · obtain ⟨τ, hτ, h⟩ := Option.bind_eq_some_iff.1 h
      obtain ⟨τ', hτ', h⟩ := Option.map_eq_some_iff.1 h
      obtain ⟨-, rfl⟩ := Prod.mk.inj h
      have hend := ((copyOut_touches hτ).seq (setPc_touches τ p li.entry)).seq
        (buildArgs_touches hτ')
      exact ((htext.trans hdata).seq ((protect_touches data.2 li p).seq hend)).mono (by simp)

theorem loadProgram_touches {file : Option Exe} {args : Option (List (List Byte))} {rc : Int}
    (h : σ.loadProgram file args p = some (rc, σ')) : Touches [.frames, .users, .memory] σ σ' := by
  unfold loadProgram at h
  cases file with
  | none =>
      exact .ret (.refl _ _) h
  | some li =>
      dsimp only at h
      split at h
      · exact .ret (.refl _ _) h
      · obtain ⟨args, -, h⟩ := Option.bind_eq_some_iff.1 h
        split at h
        · exact .ret (.refl _ _) h
        · refine (((setSp_touches σ p (argTable args)).trans
            ((malloc_touches _).mono (List.nil_subset _))).mono (by simp)).trans ?_
          split at h
          · obtain ⟨⟨ok, τ⟩, hτ, h⟩ := Option.bind_eq_some_iff.1 h
            refine ((mapProgram_touches hτ).mono (by simp)).trans ?_
            dsimp only at h
            split at h
            · exact fillProgram_touches h
            · exact .ret (.refl _ _) h
          · exact .ret (.refl _ _) h

theorem sysExec_touches (h : σ.sysExec p = some (o, σ')) :
    Touches [.frames, .users, .memory, .registers] σ σ' := by
  unfold sysExec at h
  dsimp only at h
  split at h
  · exact .ret (.refl _ _) h
  · obtain ⟨⟨rc, τ⟩, hτ, h⟩ := Option.map_eq_some_iff.1 h
    refine ((loadProgram_touches hτ).mono (by simp)).trans ?_
    dsimp only at h
    split at h
    · obtain ⟨-, rfl⟩ := Prod.mk.inj h
      exact .refl _ _
    · obtain ⟨-, rfl⟩ := Prod.mk.inj h
      exact (Touches.registers ..).mono (by simp)

theorem createChild_touches (σ : Kernel) (p : Pid) (block : Malloc) :
    Touches [.contexts, .users, .pids, .tree, .frames, .states, .buffers] σ
      (σ.createChild p block) := by
  refine ⟨fun v hv => ?_⟩
  cases v with
  | buffers => simp at hv
  | states => simp at hv
  | contexts => simp at hv
  | users => simp at hv
  | pids => simp at hv
  | tree => simp at hv
  | frames => simp at hv
  | _ => simp [View.Same, queued, blocked, createChild]

theorem copySpace_touches (σ : Kernel) (p child : Pid) :
    Touches [.frames, .memory] σ (σ.copySpace p child).2 := by
  refine ⟨fun v hv => ?_⟩
  cases v with
  | frames => simp at hv
  | memory => simp at hv
  | _ => simp [View.Same, queued, blocked, copySpace]

/-- The footprint of `init_proc_kernel` for a process that may have a stack. -/
theorem initProcKernel_touches_frames (h : σ.initProcKernel p = some σ') :
    Touches [.contexts, .frames] σ σ' := by
  obtain ⟨r, hr, rfl⟩ := Option.map_eq_some_iff.1 h
  refine ⟨fun v hv => ?_⟩
  cases v with
  | contexts => simp at hv
  | frames => simp at hv
  | states => exact states_update rfl rfl
  | buffers => exact buffers_update rfl rfl
  | users => exact field_update Pcb.uctxt rfl
  | _ => simp [View.Same, queued, blocked]

theorem sysFork_touches (h : σ.sysFork p = some (o, σ')) :
    Touches [.queues, .contexts, .users, .pids, .tree, .frames, .states, .buffers, .memory]
      σ σ' := by
  unfold sysFork at h
  dsimp only at h
  split at h
  · split at h
    · exact absurd h (by simp)
    · have hhead := (malloc_touches σ).after (((createChild_touches σ.malloc.2 p σ.malloc.1).trans
        ((malloc_touches _).mono (List.nil_subset _))).mono
          (w := [.queues, .contexts, .users, .pids, .tree, .frames, .states, .buffers, .memory])
          (by simp))
      split at h
      · obtain ⟨τ, hτ, h⟩ := Option.map_eq_some_iff.1 h
        have hinit := (initProcKernel_touches_frames hτ).mono
          (w := [.queues, .contexts, .users, .pids, .tree, .frames, .states, .buffers, .memory])
          (by simp)
        have hctx := ((setPcb_touches_users (by rfl) (by rfl) (by rfl) (by rfl) (by rfl)).mono
          (w := [.queues, .contexts, .users, .pids, .tree, .frames, .states, .buffers, .memory])
          (by simp)).trans hinit
        have hcopy := (copySpace_touches τ p σ.nextPid).mono
          (w := [.queues, .contexts, .users, .pids, .tree, .frames, .states, .buffers, .memory])
          (by simp)
        have hall := (hhead.trans hctx).trans hcopy
        split at h
        · obtain ⟨-, rfl⟩ := Prod.mk.inj h
          exact hall.trans ((readyInsert_touches _ _).mono (by simp))
        · obtain ⟨-, rfl⟩ := Prod.mk.inj h
          exact hall
      · exact .ret hhead h
  · exact .ret ((malloc_touches σ).mono (List.nil_subset _)) h

theorem scanDead_touches {vs : List View} {statusPtr : Word} {i : ℕ}
    {otherwise : Option (Outcome × Kernel)} (hvs : [.tree, .memory] ⊆ vs)
    (hother : otherwise = some (o, σ') → Touches vs σ σ')
    (h : σ.scanDead p statusPtr i otherwise = some (o, σ')) : Touches vs σ σ' := by
  unfold scanDead at h
  split at h
  · exact hother h
  · split at h
    · obtain ⟨τ, hτ, h⟩ := Option.map_eq_some_iff.1 h
      obtain ⟨-, rfl⟩ := Prod.mk.inj h
      refine ((storeInt_touches hτ).mono fun v hv => hvs (by simp_all)).trans ⟨fun v hv => ?_⟩
      cases v with
      | tree => exact absurd (hvs (by simp)) hv
      | _ => simp [View.Same, queued, blocked, Refill.refl]
    · exact absurd h (by simp)

theorem sysWaitResume_touches {statusPtr : Word} {i : ℕ}
    (h : σ.sysWaitResume p statusPtr i = some (o, σ')) : Touches [.tree, .memory] σ σ' := by
  refine scanDead_touches (by simp) (fun h => ?_) h
  exact .ret (.refl _ _) h

theorem sysWait_touches (h : σ.sysWait p = some (o, σ')) :
    Touches [.queues, .contexts, .users, .tree, .memory] σ σ' := by
  unfold sysWait at h
  dsimp only at h
  split at h
  · exact .ret (.refl _ _) h
  · obtain ⟨_, -, h⟩ := Option.bind_eq_some_iff.1 h
    split at h
    · exact .ret (.refl _ _) h
    · refine scanDead_touches (by simp) (fun h => ?_) h
      refine ((waitInsert_touches σ p).mono (by simp)).trans ?_
      exact block_touches (by simp) (fun _ _ _ _ h => (sysWaitResume_touches h).mono (by simp)) h

theorem freeSpace_touches (σ : Kernel) (p : Pid) : Touches [.frames] σ (σ.freeSpace p) := by
  refine ⟨fun v hv => ?_⟩
  cases v with
  | frames => simp at hv
  | _ => simp [View.Same, queued, blocked, freeSpace]

theorem wakeParent_touches (σ : Kernel) (ppid : Pid) :
    Touches [.queues, .tree] σ (σ.wakeParent ppid) := by
  unfold wakeParent
  split
  · have hw : Touches [.queues, .tree] σ { σ with waitList := σ.waitList.erase ppid } := by
      refine ⟨fun v hv => ?_⟩
      cases v with
      | queues => simp at hv
      | tree => simp at hv
      | _ => simp [View.Same, Refill.refl]
    exact hw.trans ((readyInsert_touches _ _).mono (by simp))
  · exact .refl _ σ

theorem setFamily_touches (σ : Kernel) (family : Pid → Family) :
    Touches [.tree] σ { σ with family := family } := by
  refine ⟨fun v hv => ?_⟩
  cases v with
  | tree => simp at hv
  | _ => simp [View.Same, queued, blocked, Refill.refl]

theorem tellParent_touches {status : Word} {rc : Int}
    (h : σ.tellParent p status = some (rc, σ')) : Touches [.tree] σ σ' := by
  unfold tellParent at h
  dsimp only at h
  split at h
  · exact .ret (.refl _ _) h
  · have hdead := insertDeadList_touches σ (σ.family p).ppid p status
    split at h
    · exact .ret hdead h
    · obtain ⟨p1, -, h⟩ := Option.map_eq_some_iff.1 h
      obtain ⟨-, rfl⟩ := Prod.mk.inj h
      exact hdead.trans (setFamily_touches _ _)

theorem sysExit_touches {status : Word} (h : σ.sysExit p status = some (o, σ')) :
    Touches [.queues, .contexts, .users, .pids, .tree, .frames] σ σ' := by
  unfold sysExit at h
  obtain ⟨family, -, h⟩ := Option.bind_eq_some_iff.1 h
  obtain ⟨⟨rc, τ⟩, hτ, h⟩ := Option.bind_eq_some_iff.1 h
  have htell := ((setFamily_touches σ family).trans (tellParent_touches hτ)).mono
    (w := [.queues, .contexts, .users, .pids, .tree, .frames]) (by simp)
  dsimp only at h
  split at h
  · exact .ret htell h
  · have hfree := (freeSpace_touches τ p).mono
      (w := [.queues, .contexts, .users, .pids, .tree, .frames]) (by simp)
    have hwake := (wakeParent_touches (τ.freeSpace p) (τ.family p).ppid).mono
      (w := [.queues, .contexts, .users, .pids, .tree, .frames]) (by simp)
    refine ((htell.trans hfree).trans hwake).trans (Touches.trans ?_ (block_touches (by simp)
      (fun _ _ _ _ h => .ret (.refl _ _) h) h))
    refine ⟨fun v hv => ?_⟩
    cases v with
    | frames => simp at hv
    | _ => simp [View.Same] at hv ⊢

theorem sysDelay_touches (h : σ.sysDelay p = some (o, σ')) :
    Touches [.queues, .contexts, .users, .states, .sleepers] σ σ' := by
  unfold sysDelay at h
  dsimp only at h
  split at h
  · exact .ret (.refl _ _) h
  · split at h
    · exact .ret (.refl _ _) h
    · have hsleep := (insertSleepList_touches σ p (σ.reg 0).toInt).mono
        (w := [.queues, .contexts, .users, .states, .sleepers]) (by simp)
      split at h
      · exact .ret hsleep h
      · exact hsleep.trans (block_touches (by simp) (fun _ _ _ _ h => .ret (.refl _ _) h) h)

/-! ## Terminals -/

theorem sysTtyReadResume_touches {ttyId : Int}
    (h : σ.sysTtyReadResume p ttyId = some (o, σ')) : Touches [.buffers, .memory] σ σ' := by
  unfold sysTtyReadResume at h
  dsimp only at h
  split at h
  · obtain ⟨τ, hτ, h⟩ := Option.map_eq_some_iff.1 h
    obtain ⟨-, rfl⟩ := Prod.mk.inj h
    exact (setPcb_touches_buffer (by rfl) (by rfl) (by rfl) (by rfl)).seq (copyOut_touches hτ)
  · exact absurd h (by simp)

theorem sysTtyRead_touches (h : σ.sysTtyRead p = some (o, σ')) :
    Touches [.queues, .contexts, .users, .terminals, .states, .buffers, .memory] σ σ' := by
  unfold sysTtyRead at h
  dsimp only at h
  split at h
  · exact .ret (.refl _ _) h
  split at h
  · exact .ret (.refl _ _) h
  split at h
  · exact .ret (.refl _ _) h
  split at h
  · exact .ret (.refl _ _) h
  have hset := setPcb_touches_buffers (σ := σ) (p := p) (x := { σ.pcb p with
    ttyId := (σ.reg 0).toInt, buf := σ.reg 1, len := (σ.reg 2).toInt, state := .blockedR }) rfl rfl
  have hio := (hset.seq (ioInsert_touches _ p)).mono
    (w := [.queues, .contexts, .users, .terminals, .states, .buffers, .memory]) (by simp)
  split at h
  · exact .ret hio h
  · exact hio.trans (block_touches (by simp)
      (fun _ _ _ _ h => (sysTtyReadResume_touches h).mono (by simp)) h)

theorem blockWriter_touches (σ : Kernel) (p : Pid) :
    Touches [.queues, .terminals, .states] σ (σ.blockWriter p).2 :=
  ((setPcb_touches (by rfl) (by rfl) (by rfl) (by rfl)).seq (ioInsert_touches _ p)).mono (by simp)

theorem ttyTransmit_touches (σ : Kernel) (ttyId : Int) (bytes : List Byte) :
    Touches [.terminals] σ (σ.ttyTransmit ttyId bytes) := .terminal ..

theorem ttyWriteLoop_touches {n : ℕ} {ttyId remainBytes : Int}
    (h : ttyWriteLoop n σ p ttyId remainBytes = some (o, σ')) :
    Touches [.queues, .contexts, .users, .terminals, .states] σ σ' := by
  induction n generalizing σ σ' o remainBytes with
  | zero => exact absurd h (by simp [ttyWriteLoop])
  | succ n ih =>
      unfold ttyWriteLoop at h
      dsimp only at h
      split at h
      · exact .ret (.refl _ _) h
      split at h
      · split at h
        · have hw := (blockWriter_touches σ p).mono
            (w := [.queues, .contexts, .users, .terminals, .states]) (by simp)
          split at h
          · exact .ret hw h
          · exact hw.trans (block_touches (by simp) (fun _ _ _ _ h => ih h) h)
        · obtain ⟨bytes, -, h⟩ := Option.bind_eq_some_iff.1 h
          have hw := ((ttyTransmit_touches σ ttyId bytes).seq (blockWriter_touches _ p)).mono
            (w := [.queues, .contexts, .users, .terminals, .states]) (by simp)
          split at h
          · exact .ret hw h
          · exact hw.trans (block_touches (by simp) (fun _ _ _ _ h => ih h) h)
      · exact absurd h (by simp)

theorem sysTtyWriteResume_touches {ttyId remainBytes : Int}
    (h : σ.sysTtyWriteResume p ttyId remainBytes = some (o, σ')) :
    Touches [.queues, .contexts, .users, .terminals, .states] σ σ' := ttyWriteLoop_touches h

theorem sysTtyWrite_touches (h : σ.sysTtyWrite p = some (o, σ')) :
    Touches [.queues, .contexts, .users, .terminals, .states] σ σ' := by
  unfold sysTtyWrite at h
  dsimp only at h
  split at h
  · exact .ret (.refl _ _) h
  split at h
  · exact .ret (.refl _ _) h
  split at h
  · exact .ret (.refl _ _) h
  split at h
  · exact .ret (.refl _ _) h
  · exact sysTtyWriteResume_touches h

theorem receiveLine_touches (σ : Kernel) (ttyId : Int) : Touches [.lines] σ (σ.receiveLine ttyId) :=
  .received ..

theorem trapTtyReceiveHdl_touches (h : σ.trapTtyReceiveHdl = some σ') :
    Touches [.queues, .terminals, .lines] σ σ' := by
  unfold trapTtyReceiveHdl at h
  dsimp only at h
  split at h
  · refine ((receiveLine_touches σ σ.uContext.code.toInt).mono (by simp)).trans ?_
    split at h
    · obtain rfl := Option.some.inj h
      exact .refl _ _
    · split at h
      · obtain rfl := Option.some.inj h
        exact ((Touches.terminals _ _ _ (.refl _)).mono (by simp)).trans
          ((readyInsert_touches _ _).mono (by simp))
      · exact absurd h (by simp)
  · exact absurd h (by simp)

theorem trapTtyTransmitHdl_touches (h : σ.trapTtyTransmitHdl = some σ') :
    Touches [.queues, .terminals] σ σ' := by
  unfold trapTtyTransmitHdl at h
  dsimp only at h
  split at h
  · have hbusy : Touches [.queues, .terminals] σ { σ with
        busyTerminal := Function.update σ.busyTerminal σ.uContext.code.toInt false } :=
      (Touches.terminal ..).mono (by simp)
    split at h
    · obtain rfl := Option.some.inj h
      exact hbusy
    · obtain rfl := Option.some.inj h
      exact (hbusy.trans (Touches.terminals _ _ _ (.refl _))).trans
        ((readyInsert_touches _ _).mono (by simp))
  · exact absurd h (by simp)

/-! ## Pipes -/

theorem reclaimInsert_touches (σ : Kernel) (type : Kind) :
    Touches [.objects] σ (σ.reclaimInsert type).2 := by
  refine ⟨fun v hv => ?_⟩
  cases v with
  | frames => exact refill_listInsert ..
  | objects => simp at hv
  | _ => simp [View.Same, queued, blocked, reclaimInsert]

theorem pipeWaitInsert_touches (σ : Kernel) (a : ℕ) (q : Pid) :
    Touches [.queues, .pipes] σ (σ.pipeWaitInsert a q) :=
  (Touches.mem (refill_listInsert ..)).after (.pipe (by rfl))

theorem lockWaitInsert_touches (σ : Kernel) (a : ℕ) (q : Pid) :
    Touches [.queues, .lockTable] σ (σ.lockWaitInsert a q) :=
  (Touches.mem (refill_listInsert ..)).after (.lockQueue (by rfl) (by rfl) (by rfl))

theorem cvarWaitInsert_touches (σ : Kernel) (a : ℕ) (q : Pid) :
    Touches [.queues, .cvars] σ (σ.cvarWaitInsert a q) :=
  (Touches.mem (refill_listInsert ..)).after (.cvar (by rfl))

theorem semWaitInsert_touches (σ : Kernel) (a : ℕ) (q : Pid) :
    Touches [.queues, .sems] σ (σ.semWaitInsert a q) :=
  (Touches.mem (refill_listInsert ..)).after (.semaphores _)

theorem pipesAlloc_touches (σ : Kernel) (hint : ℕ) {x : PipeInfo} (h : x.pipeWaitList = []) :
    Touches [.objects, .pipes] σ { σ with pipes := σ.pipes.alloc hint x } := by
  refine ⟨fun v hv => ?_⟩
  cases v with
  | objects => simp at hv
  | pipes => simp at hv
  | queues =>
      exact ⟨rfl, rfl, rfl, rfl, rfl, fun q => by simp [queued, blocked, Table.sum_alloc, h]⟩
  | _ => simp [View.Same, Refill.refl]

theorem sysPipeInit_touches (h : σ.sysPipeInit p = some (o, σ')) :
    Touches [.objects, .pipes, .memory] σ σ' := by
  unfold sysPipeInit at h
  dsimp only at h
  have hrecord := (malloc_touches σ).trans (malloc_touches _)
  split at h
  · exact .ret (hrecord.mono (by simp)) h
  have hbuffer := hrecord.trans (malloc_touches _)
  split at h
  · exact .ret (hbuffer.mono (by simp)) h
  have hhead := hbuffer.trans (malloc_touches _)
  split at h
  · exact .ret (hhead.mono (by simp)) h
  obtain ⟨τ, hτ, h⟩ := Option.bind_eq_some_iff.1 h
  have hnode := (hhead.after (storeInt_touches hτ)).trans
    ((malloc_touches τ).mono (List.nil_subset _))
  split at h
  · exact .ret (hnode.mono (by simp)) h
  have hall := (hnode.mono (w := [.objects, .pipes, .memory]) (by simp)).trans
    (((pipesAlloc_touches τ.malloc.2 σ.malloc.1.addr
      (x := ⟨τ.newId, 0, fun _ => 0, []⟩) rfl).trans
        ((reclaimInsert_touches _ .pipe).mono (by simp))).mono (by simp))
  split at h
  · exact .ret hall h
  · exact .ret hall h

theorem wakePipe_touches (σ : Kernel) (a : ℕ) : Touches [.queues, .pipes] σ (σ.wakePipe a) := by
  unfold wakePipe
  dsimp only
  split
  · exact .refl _ _
  · refine Touches.trans ?_ ((readyInsert_touches _ _).mono (by simp))
    exact .pipe rfl

theorem takeBytes_touches {a : ℕ} {buf : Word} {len : Int}
    (h : σ.takeBytes a buf len = some (o, σ')) : Touches [.queues, .pipes, .memory] σ σ' := by
  unfold takeBytes at h
  obtain ⟨τ, hτ, h⟩ := Option.bind_eq_some_iff.1 h
  have htmp := (copyOut_touches hτ).trans ((malloc_touches τ).mono (List.nil_subset _))
  dsimp only at h
  split at h
  · refine (htmp.mono (by simp)).trans
      ((Touches.ret (Touches.trans (.pipe ?_) (wakePipe_touches _ a)) h).mono (by simp))
    exact (((htmp.same .objects (by simp)).2.1).2 a).symm
  · exact absurd h (by simp)

theorem pipeReadLoop_touches {a : ℕ} {pipeId : Int} {buf : Word} {len : Int} {exist : Bool}
    (h : σ.pipeReadLoop p a pipeId buf len exist = some (o, σ')) :
    Touches [.queues, .contexts, .users, .pipes, .memory] σ σ' := by
  unfold pipeReadLoop at h
  split at h
  · split at h
    · exact ((pipeWaitInsert_touches σ a p).mono (by simp)).trans
        (block_touches (by simp) (fun _ _ _ _ h => absurd h (by simp)) h)
    · exact (takeBytes_touches h).mono (by simp)
  · exact absurd h (by simp)

theorem sysPipeReadResume_touches {a : ℕ} {pipeId : Int} {buf : Word} {len : Int} {exist : Bool}
    (h : σ.sysPipeReadResume p a pipeId buf len exist = some (o, σ')) :
    Touches [.queues, .contexts, .users, .pipes, .memory] σ σ' := by
  unfold sysPipeReadResume at h
  dsimp only at h
  split at h
  · exact pipeReadLoop_touches h
  · exact .ret (.refl _ _) h

theorem sysPipeRead_touches (h : σ.sysPipeRead p = some (o, σ')) :
    Touches [.queues, .contexts, .users, .pipes, .memory] σ σ' := by
  unfold sysPipeRead at h
  dsimp only at h
  split at h
  · exact .ret (.refl _ _) h
  split at h
  · exact .ret (.refl _ _) h
  split at h
  · exact .ret (.refl _ _) h
  split at h
  · exact .ret (.refl _ _) h
  · exact pipeReadLoop_touches h

theorem sysPipeWrite_touches (h : σ.sysPipeWrite p = some (o, σ')) :
    Touches [.queues, .pipes] σ σ' := by
  unfold sysPipeWrite at h
  dsimp only at h
  split at h
  · exact .ret (.refl _ _) h
  split at h
  · exact .ret (.refl _ _) h
  split at h
  · exact .ret (.refl _ _) h
  split at h
  · exact .ret (.refl _ _) h
  · obtain ⟨bytes, -, h⟩ := Option.map_eq_some_iff.1 h
    obtain ⟨-, rfl⟩ := Prod.mk.inj h
    refine Touches.trans ?_ (wakePipe_touches _ _)
    exact .pipe rfl

/-! ## Locks and cvars -/

theorem sysLockInit_touches (h : σ.sysLockInit p = some (o, σ')) :
    Touches [.objects, .locks, .lockTable, .memory] σ σ' := by
  unfold sysLockInit at h
  dsimp only at h
  have hrecord := (malloc_touches σ).trans (malloc_touches _)
  split at h
  · exact .ret (hrecord.mono (by simp)) h
  have hhead := hrecord.trans (malloc_touches _)
  split at h
  · exact .ret (hhead.mono (by simp)) h
  obtain ⟨τ, hτ, h⟩ := Option.bind_eq_some_iff.1 h
  have hnode := (hhead.after (storeInt_touches hτ)).trans
    ((malloc_touches τ).mono (List.nil_subset _))
  split at h
  · exact .ret (hnode.mono (by simp)) h
  have halloc : Touches [.objects, .locks, .lockTable] τ.malloc.2 { τ.malloc.2 with
      locks := τ.malloc.2.locks.alloc σ.malloc.1.addr ⟨τ.newId, false, 0, []⟩ } := by
    refine ⟨fun v hv => ?_⟩
    cases v with
    | objects => simp at hv
    | locks => simp at hv
    | lockTable => simp at hv
    | queues => exact ⟨rfl, rfl, rfl, rfl, rfl, fun q => by simp [queued, blocked, Table.sum_alloc]⟩
    | _ => simp [View.Same, Refill.refl]
  have hall := (hnode.mono (w := [.objects, .locks, .lockTable, .memory]) (by simp)).trans
    ((halloc.trans ((reclaimInsert_touches _ .lock).mono (by simp))).mono (by simp))
  split at h
  · exact .ret hall h
  · exact .ret hall h

theorem acquireLoop_touches {via : Option Int} {a : ℕ} {lockId : Int} {exist : Bool}
    (h : σ.acquireLoop p via a lockId exist = some (o, σ')) :
    Touches [.queues, .contexts, .users, .locks, .lockTable] σ σ' := by
  unfold acquireLoop at h
  dsimp only at h
  split at h
  · split at h
    · exact ((lockWaitInsert_touches σ a p).mono (by simp)).trans
        (block_touches (by simp) (fun _ _ _ _ h => absurd h (by simp)) h)
    · refine .ret ?_ h
      exact (Touches.lock (by rfl)).mono (by simp)
  · exact absurd h (by simp)

theorem sysAcquireResume_touches {via : Option Int} {a : ℕ} {lockId : Int} {exist : Bool}
    (h : σ.sysAcquireResume p via a lockId exist = some (o, σ')) :
    Touches [.queues, .contexts, .users, .locks, .lockTable] σ σ' := by
  unfold sysAcquireResume at h
  dsimp only at h
  split at h
  · exact acquireLoop_touches h
  · exact .ret (.refl _ _) h

theorem sysAcquire_touches {via : Option Int} {id : Int}
    (h : σ.sysAcquire p via id = some (o, σ')) :
    Touches [.queues, .contexts, .users, .locks, .lockTable] σ σ' := by
  unfold sysAcquire at h
  dsimp only at h
  split at h
  · exact .ret (.refl _ _) h
  split at h
  · exact .ret (.refl _ _) h
  · exact acquireLoop_touches h

theorem sysRelease_touches (σ : Kernel) (p : Pid) (lockId : Int) :
    Touches [.queues, .locks, .lockTable] σ (σ.sysRelease p lockId).2 := by
  unfold sysRelease
  split
  · exact .refl _ _
  · dsimp only
    split
    · exact .lock rfl
    · refine Touches.trans ?_ ((readyInsert_touches _ _).mono (by simp))
      exact .lock rfl

theorem sysCvarInit_touches (h : σ.sysCvarInit p = some (o, σ')) :
    Touches [.objects, .cvars, .memory] σ σ' := by
  unfold sysCvarInit at h
  dsimp only at h
  have hcvar := (malloc_touches σ).trans (malloc_touches _)
  split at h
  · exact .ret (hcvar.mono (by simp)) h
  have hhead := hcvar.trans (malloc_touches _)
  split at h
  · exact .ret (hhead.mono (by simp)) h
  obtain ⟨τ, hτ, h⟩ := Option.bind_eq_some_iff.1 h
  have hnode := (hhead.after (storeInt_touches hτ)).trans
    ((malloc_touches τ).mono (List.nil_subset _))
  split at h
  · exact .ret (hnode.mono (by simp)) h
  split at h
  · have halloc : Touches [.objects, .cvars] τ.malloc.2 { τ.malloc.2 with
        cvars := τ.malloc.2.cvars.alloc σ.malloc.2.malloc.1.addr ⟨τ.newId, []⟩ } := by
      refine ⟨fun v hv => ?_⟩
      cases v with
      | objects => simp at hv
      | cvars => simp at hv
      | queues =>
          exact ⟨rfl, rfl, rfl, rfl, rfl, fun q => by simp [queued, blocked, Table.sum_alloc]⟩
      | _ => simp [View.Same, Refill.refl]
    have hall := (hnode.mono (w := [.objects, .cvars, .memory]) (by simp)).trans
      ((halloc.trans ((reclaimInsert_touches _ .cvar).mono (by simp))).mono (by simp))
    split at h
    · exact .ret hall h
    · exact .ret hall h
  · exact absurd h (by simp)

theorem sysCvarSignal_touches (h : σ.sysCvarSignal p = some (o, σ')) :
    Touches [.queues, .cvars] σ σ' := by
  unfold sysCvarSignal at h
  dsimp only at h
  split at h
  · exact .ret (.refl _ _) h
  split at h
  · exact .ret (.refl _ _) h
  split at h
  · exact .ret (.refl _ _) h
  have hall : ∀ a q l, Touches [.queues, .cvars] σ (readyInsert { σ with
      cvars := σ.cvars.write a { σ.cvars.cell a with cvarWaitList := l } } q).2 := by
    intro a q l
    refine Touches.trans ?_ ((readyInsert_touches _ _).mono (by simp))
    exact .cvar rfl
  split at h
  · exact .ret (hall _ _ _) h
  · exact .ret (hall _ _ _) h

theorem sysCvarBroadcast_touches (h : σ.sysCvarBroadcast p = some (o, σ')) :
    Touches [.queues, .cvars] σ σ' := by
  unfold sysCvarBroadcast at h
  dsimp only at h
  split at h
  · exact .ret (.refl _ _) h
  split at h
  · exact .ret (.refl _ _) h
  · rename_i a _
    have hwake := (wakeAll_touches (σ.cvars.cell a).cvarWaitList σ).mono
      (w := [.queues, .cvars]) (by simp)
    refine .ret (hwake.trans ?_) h
    exact .cvar ((hwake.same .objects (by simp)).2.2.2.2 a).symm

theorem sysCvarWaitResume_touches {cvarId lockId : Int}
    (h : σ.sysCvarWaitResume p cvarId lockId = some (o, σ')) :
    Touches [.queues, .contexts, .users, .locks, .lockTable] σ σ' := by
  unfold sysCvarWaitResume at h
  split at h
  · exact sysAcquire_touches h
  · exact .ret (.refl _ _) h

theorem sysCvarWait_touches (h : σ.sysCvarWait p = some (o, σ')) :
    Touches [.queues, .contexts, .users, .locks, .lockTable, .cvars] σ σ' := by
  unfold sysCvarWait at h
  dsimp only at h
  have hrel := (sysRelease_touches σ p (σ.reg 1).toInt).mono
    (w := [.queues, .contexts, .users, .locks, .lockTable, .cvars]) (by simp)
  generalize σ.sysRelease p (σ.reg 1).toInt = r at h hrel
  split at h
  · exact .ret hrel h
  split at h
  · exact .ret hrel h
  · rename_i a _
    exact (hrel.trans ((cvarWaitInsert_touches r.2 a p).mono (by simp))).trans
      (block_touches (by simp) (fun _ _ _ _ h => (sysCvarWaitResume_touches h).mono (by simp)) h)

/-! ## Reclaim and semaphores -/

theorem destroy_touches (σ : Kernel) (p : Pid) (id : Int) (type : Kind) :
    Touches [.queues, .objects, .locks, .pipes, .lockTable, .cvars] σ (σ.destroy p id type).2 := by
  have hwake : ∀ l, Touches [.queues, .objects, .locks, .pipes, .lockTable, .cvars] σ
      (wakeWaiting 1 l σ).2 :=
    fun l => (wakeWaiting_touches 1 l σ).mono (by simp)
  cases type with
  | pipe =>
      change Touches _ σ (destroyPipeInfo σ id).2
      unfold destroyPipeInfo
      split
      · exact .refl _ _
      split
      · exact .refl _ _
      rename_i a _
      refine (hwake (σ.pipes.cell a).pipeWaitList).trans ⟨fun v hv => ?_⟩
      cases v <;> simp [View.Same, Refill.refl] at hv ⊢
  | lock =>
      change Touches _ σ (destroyLockInfo σ p id).2
      unfold destroyLockInfo
      split
      · exact .refl _ _
      split
      · exact .refl _ _
      rename_i a _
      refine (hwake (σ.locks.cell a).lockWaitList).trans ⟨fun v hv => ?_⟩
      cases v <;> simp [View.Same, Refill.refl] at hv ⊢
  | cvar =>
      change Touches _ σ (destroyCvarInfo σ id).2
      unfold destroyCvarInfo
      split
      · exact .refl _ _
      split
      · exact .refl _ _
      rename_i a _
      refine (hwake (σ.cvars.cell a).cvarWaitList).trans ⟨fun v hv => ?_⟩
      cases v <;> simp [View.Same, Refill.refl] at hv ⊢

theorem sysReclaim_touches (h : σ.sysReclaim p = some (o, σ')) :
    Touches [.queues, .objects, .locks, .pipes, .lockTable, .cvars] σ σ' := by
  unfold sysReclaim at h
  dsimp only at h
  split at h
  · exact .ret (.refl _ _) h
  split at h
  · exact .ret (.refl _ _) h
  rename_i r _
  have hd := destroy_touches σ p (σ.reg 0).toInt r.type
  split at h
  · exact .ret hd h
  · refine .ret (hd.trans ⟨fun v hv => ?_⟩) h
    cases v <;> simp [View.Same, Refill.refl] at hv ⊢

theorem sysCustom0_touches (h : σ.sysCustom0 p = some (o, σ')) :
    Touches [.queues, .sems] σ σ' := by
  unfold sysCustom0 at h
  dsimp only at h
  have htmp := malloc_touches σ
  split at h
  · exact .ret (htmp.mono (by simp)) h
  have hsem : Touches [.queues, .sems] σ.malloc.2 { σ.malloc.2 with nextSem := σ.nextSem + 1 } :=
    (Touches.nextSem _).mono (by simp)
  have hhead := (htmp.after hsem).trans ((malloc_touches _).mono (by simp))
  split at h
  · exact .ret hhead h
  have hnode := hhead.trans ((malloc_touches _).mono (by simp))
  split at h
  · exact .ret (hnode.trans (.semaphores _)) h
  · exact .ret hnode h

theorem sysCustom1_touches (h : σ.sysCustom1 p = some (o, σ')) : Touches [.queues, .sems] σ σ' := by
  unfold sysCustom1 at h
  obtain ⟨a, -, h⟩ := Option.map_eq_some_iff.1 h
  dsimp only at h
  split at h
  · obtain ⟨-, rfl⟩ := Prod.mk.inj h
    exact .semaphores _
  · obtain ⟨-, rfl⟩ := Prod.mk.inj h
    exact (Touches.semaphores _).trans ((readyInsert_touches _ _).mono (by simp))

theorem sysCustom2_touches (h : σ.sysCustom2 p = some (o, σ')) :
    Touches [.queues, .contexts, .users, .sems] σ σ' := by
  unfold sysCustom2 at h
  obtain ⟨a, -, h⟩ := Option.bind_eq_some_iff.1 h
  dsimp only at h
  split at h
  · exact (((Touches.semaphores _).trans (semWaitInsert_touches _ a p)).mono (by simp)).trans
      (block_touches (by simp) (fun _ _ _ _ h => .ret (.refl _ _) h) h)
  · exact .ret ((Touches.semaphores _).mono (by simp)) h

end Kernel

end Yalnix
