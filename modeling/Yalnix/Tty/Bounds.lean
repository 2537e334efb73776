import Yalnix.Tty.Read

/-!
# The bounds of TtyRead and TtyWrite

`receive` and `busy_terminal` have `NUM_TERMINALS` entries. The calls are written again with
the positions that they use on the way: an entry of a table is got at through `useEntry` only,
and without the positions what is left is the call itself.
-/

namespace Yalnix

open Transition

namespace Kernel

variable {σ σ' : Kernel} {l : Label} {p q : Pid} {o : Outcome} {t r : Int} {n : ℕ}

/-! ## Positions of the tables -/

/-- The positions of the two tables that a stretch of code uses, and what it does. -/
abbrev Indexed := List Int × Option (Outcome × Kernel)

/-- The code uses the entry `i` of a table and goes on with it, if there is one. -/
def useEntry {α : Type} (table : Int → α) (i : Int) (after : α → Indexed) : Indexed :=
  if isTerminal i then (i :: (after (table i)).1, (after (table i)).2) else ([i], none)

/-- `block`, and the positions that are used when `normal_schedule` returns 0 at once. -/
def blockIndexed (σ : Kernel) (k : KernelContext) (after : Kernel → Indexed) : Indexed :=
  (match σ.normalSchedule k with
    | some (.returned rc, τ) => if rc ≠ 0 then [] else (after τ).1
    | _ => [],
   σ.block k fun τ => (after τ).2)

/-- `sys_TtyRead` after `normal_schedule`. -/
def ttyReadResumeIndexed (σ : Kernel) (p : Pid) (ttyId : Int) : Indexed :=
  useEntry σ.receive ttyId fun line =>
    let σ := σ.setPcb p { σ.pcb p with len := σ.stringLen }
    ([], (σ.copyOut (σ.pcb p).buf ((List.range σ.stringLen).map line)).map fun σ =>
      (.ret (σ.pcb p).len, σ))

/-- `sys_TtyRead`. -/
def ttyReadIndexed (σ : Kernel) (p : Pid) : Indexed :=
  let ttyId := (σ.reg 0).toInt
  let len := (σ.reg 2).toInt
  let pageNum := pageNumber (downToPage (σ.reg 1) - vmem1Base)
  if ttyId < 0 ∨ ttyId > numTerminals then ([], some (.ret error, σ))
  else if len < 0 then ([], some (.ret error, σ))
  else if (σ.space p).nextHeapPn ≤ pageNum ∧ pageNum ≤ (σ.space p).nextStackPn then
    ([], some (.ret error, σ))
  else if σ.reg 1 < vmem1Base then ([], some (.ret error, σ))
  else
    let σ := σ.setPcb p
      { σ.pcb p with ttyId := ttyId, buf := σ.reg 1, len := len, state := .blockedR }
    let r := σ.ioInsert p
    if r.1 ≠ 0 then ([], some (.ret error, r.2))
    else r.2.blockIndexed (.ttyRead ttyId) fun σ => σ.ttyReadResumeIndexed p ttyId

/-- The loop of `sys_TtyWrite`. The busy flag is read, and set before the bytes go out. -/
def ttyWriteLoopIndexed : ℕ → Kernel → Pid → Int → Int → Indexed
  | 0, _, _, _, _ => ([], none)
  | n + 1, σ, p, ttyId, remainBytes =>
      if remainBytes ≤ 0 then ([], some (.ret (σ.reg 2).toInt, σ))
      else useEntry σ.busyTerminal ttyId fun busy =>
        if busy then
          let r := σ.blockWriter p
          if r.1 ≠ 0 then ([], some (.ret error, r.2))
          else r.2.blockIndexed (.ttyBusy ttyId remainBytes) fun σ =>
            ttyWriteLoopIndexed n σ p ttyId remainBytes
        else useEntry (fun _ => ()) ttyId fun _ =>
          let size := min remainBytes terminalMaxLine
          match σ.copyIn (σ.reg 1) size.toNat with
          | none => ([], none)
          | some bytes =>
              let r := (σ.ttyTransmit ttyId bytes).blockWriter p
              if r.1 ≠ 0 then ([], some (.ret error, r.2))
              else r.2.blockIndexed (.ttySent ttyId (remainBytes - size)) fun σ =>
                ttyWriteLoopIndexed n σ p ttyId (remainBytes - size)

/-- `sys_TtyWrite` from the test of its loop on. -/
def ttyWriteResumeIndexed (σ : Kernel) (p : Pid) (ttyId remainBytes : Int) : Indexed :=
  ttyWriteLoopIndexed (σ.mem.mallocs.length + 2) σ p ttyId remainBytes

/-- `sys_TtyWrite`. -/
def ttyWriteIndexed (σ : Kernel) (p : Pid) : Indexed :=
  let ttyId := (σ.reg 0).toInt
  let pageNum := pageNumber (downToPage (σ.reg 1 - vmem1Base))
  if ttyId < 0 ∨ ttyId > numTerminals then ([], some (.ret error, σ))
  else if (σ.reg 2).toInt < 0 then ([], some (.ret error, σ))
  else if σ.reg 1 < vmem1Base then ([], some (.ret error, σ))
  else if (σ.space p).nextHeapPn ≤ pageNum ∧ pageNum ≤ (σ.space p).nextStackPn then
    ([], some (.ret error, σ))
  else σ.ttyWriteResumeIndexed p ttyId (σ.reg 2).toInt

/-! ## Without the positions -/

theorem useEntry_snd {α : Type} (table : Int → α) (i : Int) (after : α → Indexed) :
    (useEntry table i after).2 = if isTerminal i then (after (table i)).2 else none := by
  unfold useEntry
  split <;> rfl

@[simp] theorem blockIndexed_snd (σ : Kernel) (k : KernelContext) (after : Kernel → Indexed) :
    (σ.blockIndexed k after).2 = σ.block k fun τ => (after τ).2 := rfl

@[simp] theorem ttyReadResumeIndexed_snd (σ : Kernel) (p : Pid) (t : Int) :
    (σ.ttyReadResumeIndexed p t).2 = σ.sysTtyReadResume p t := by
  unfold ttyReadResumeIndexed sysTtyReadResume
  rw [useEntry_snd]
  rfl

theorem ttyReadIndexed_snd (σ : Kernel) (p : Pid) :
    (σ.ttyReadIndexed p).2 = σ.sysTtyRead p := by
  unfold ttyReadIndexed sysTtyRead
  dsimp only
  split_ifs <;> simp

@[simp] theorem ttyWriteLoopIndexed_snd (n : ℕ) (σ : Kernel) (p : Pid) (t r : Int) :
    (ttyWriteLoopIndexed n σ p t r).2 = ttyWriteLoop n σ p t r := by
  induction n generalizing σ r with
  | zero => rfl
  | succ n ih =>
      unfold ttyWriteLoopIndexed ttyWriteLoop
      split
      · rfl
      rw [useEntry_snd]
      split
      swap
      · rfl
      rename_i hterm
      split
      · dsimp only
        split
        · rfl
        · simp only [blockIndexed_snd, ih]
      · rw [useEntry_snd, if_pos hterm]
        dsimp only
        cases σ.copyIn (σ.reg 1) (min r terminalMaxLine).toNat with
        | none => rfl
        | some bytes =>
            dsimp only [Option.bind_some]
            split
            · rfl
            · simp only [blockIndexed_snd, ih]

theorem ttyWriteIndexed_snd (σ : Kernel) (p : Pid) :
    (σ.ttyWriteIndexed p).2 = σ.sysTtyWrite p := by
  unfold ttyWriteIndexed sysTtyWrite
  dsimp only
  split_ifs <;> simp [ttyWriteResumeIndexed, sysTtyWriteResume]

/-! ## Which positions are used -/

theorem mem_useEntry {α : Type} {table : Int → α} {t i : Int} {after : α → Indexed}
    (h : ∀ x, ∀ j ∈ (after x).1, j = t) (hi : i ∈ (useEntry table t after).1) : i = t := by
  unfold useEntry at hi
  split at hi
  · rcases List.mem_cons.1 hi with rfl | hi
    · rfl
    · exact h _ i hi
  · exact List.mem_singleton.1 hi

theorem useEntry_self {α : Type} (table : Int → α) (i : Int) (after : α → Indexed) :
    i ∈ (useEntry table i after).1 := by
  unfold useEntry
  split <;> simp

/-- What follows `normal_schedule` at once uses positions only when nothing is ready. -/
theorem blockIndexed_fst (σ : Kernel) (k : KernelContext) (after : Kernel → Indexed) :
    (σ.blockIndexed k after).1 =
      if 0 < σ.readyQueue.length then []
      else (after { σ with fellThrough := σ.fellThrough + 1 }).1 := by
  unfold blockIndexed normalSchedule
  by_cases hready : 0 < σ.readyQueue.length
  · rw [if_pos hready, if_pos hready]
    cases σ.nextReady with
    | mk next τ =>
        cases next with
        | none => simp [error]
        | some next => cases hc : τ.contextSwitch τ.activeProc next k <;> simp [hc]
  · rw [if_neg hready, if_neg hready]
    rfl

theorem mem_blockIndexed {k : KernelContext} {after : Kernel → Indexed} {i : Int}
    (h : ∀ τ, ∀ j ∈ (after τ).1, j = t) (hi : i ∈ (σ.blockIndexed k after).1) : i = t := by
  rw [blockIndexed_fst] at hi
  split at hi
  · exact absurd hi (by simp)
  · exact h _ i hi

theorem ttyReadResumeIndexed_fst (σ : Kernel) (p : Pid) (t : Int) :
    (σ.ttyReadResumeIndexed p t).1 = [t] := by
  unfold ttyReadResumeIndexed useEntry
  split <;> rfl

/-- The loop of `sys_TtyWrite` uses the entry of its terminal and no other. -/
theorem mem_ttyWriteLoopIndexed {i : Int} (h : i ∈ (ttyWriteLoopIndexed n σ p t r).1) :
    i = t := by
  induction n generalizing σ r i with
  | zero => exact absurd h (by simp [ttyWriteLoopIndexed])
  | succ n ih =>
      unfold ttyWriteLoopIndexed at h
      split at h
      · exact absurd h (by simp)
      refine mem_useEntry (fun busy j hj => ?_) h
      dsimp only at hj
      split at hj
      · split at hj
        · exact absurd hj (by simp)
        · exact mem_blockIndexed (fun τ j hj => ih hj) hj
      · refine mem_useEntry (fun _ j hj => ?_) hj
        split at hj
        · exact absurd hj (by simp)
        split at hj
        · exact absurd hj (by simp)
        · exact mem_blockIndexed (fun τ j hj => ih hj) hj

theorem ttyWriteResumeIndexed_iff (σ : Kernel) (p : Pid) (t r : Int) :
    (∀ i ∈ (σ.ttyWriteResumeIndexed p t r).1, isTerminal i = true) ↔
      r ≤ 0 ∨ isTerminal t = true := by
  constructor
  · intro h
    rcases le_or_gt r 0 with hr | hr
    · exact .inl hr
    · refine .inr (h t ?_)
      unfold ttyWriteResumeIndexed ttyWriteLoopIndexed
      rw [if_neg (not_le.2 hr)]
      exact useEntry_self _ _ _
  · rintro (hr | ht) i hi
    · unfold ttyWriteResumeIndexed ttyWriteLoopIndexed at hi
      rw [if_pos hr] at hi
      exact absurd hi (by simp)
    · rw [mem_ttyWriteLoopIndexed hi]
      exact ht

theorem ttyReadIndexed_iff (h : σ.sysTtyRead p ≠ some (.ret error, σ)) :
    (∀ i ∈ (σ.ttyReadIndexed p).1, isTerminal i = true) ↔
      (σ.reg 0).toInt ≠ numTerminals ∨ (σ.ioInsert p).1 ≠ 0 ∨ 0 < σ.readyQueue.length := by
  obtain ⟨h₀, hle⟩ := sysTtyRead_passes h
  rw [← isTerminal_iff h₀ hle]
  unfold sysTtyRead at h
  unfold ttyReadIndexed
  dsimp only at h ⊢
  split at h
  · exact absurd rfl h
  split at h
  · exact absurd rfl h
  split at h
  · exact absurd rfl h
  split at h
  · exact absurd rfl h
  rw [if_neg ‹_›, if_neg ‹_›, if_neg ‹_›, if_neg ‹_›]
  have hrc : ∀ x, ((σ.setPcb p x).ioInsert p).1 = (σ.ioInsert p).1 := fun _ => rfl
  have hready : ∀ x, ((σ.setPcb p x).ioInsert p).2.readyQueue = σ.readyQueue := fun _ => rfl
  rw [hrc]
  split
  · simp [*]
  rw [blockIndexed_fst, hready]
  split
  · simp [*]
  · rw [ttyReadResumeIndexed_fst]
    simp [*]

theorem ttyWriteIndexed_iff (h : σ.sysTtyWrite p ≠ some (.ret error, σ)) :
    (∀ i ∈ (σ.ttyWriteIndexed p).1, isTerminal i = true) ↔
      (σ.reg 2).toInt = 0 ∨ (σ.reg 0).toInt ≠ numTerminals := by
  obtain ⟨h₀, hle, hlen⟩ := sysTtyWrite_passes h
  have hzero : (σ.reg 2).toInt = 0 ↔ (σ.reg 2).toInt ≤ 0 :=
    ⟨le_of_eq, fun hle => le_antisymm hle hlen⟩
  rw [← isTerminal_iff h₀ hle, hzero, ← ttyWriteResumeIndexed_iff σ p]
  unfold sysTtyWrite at h
  unfold ttyWriteIndexed
  dsimp only at h ⊢
  split at h
  · exact absurd rfl h
  split at h
  · exact absurd rfl h
  split at h
  · exact absurd rfl h
  split at h
  · exact absurd rfl h
  rw [if_neg ‹_›, if_neg ‹_›, if_neg ‹_›, if_neg ‹_›]

/-! ## Bounds -/

/-- The result of a TtyRead that keeps to its bounds: what it returns is the number of bytes
that have been written to its buffer, and no more than it has asked for. -/
def ReadBounded (σ : Kernel) (o : Outcome) (σ' : Kernel) : Prop :=
  ∃ bytes, σ.writeBytes (σ.reg 1) bytes σ.phys = some σ'.phys ∧
    (bytes.length : Int) ≤ (σ.reg 2).toInt ∧ o = .ret bytes.length

theorem readBounded_iff (hask : Asked (σ.pcb p) t σ.uContext)
    (h : σ.sysTtyReadResume p t = some (o, σ')) :
    ReadBounded σ o σ' ↔ (σ.stringLen : Int) ≤ (σ.reg 2).toInt := by
  obtain ⟨rfl, hphys⟩ := sysTtyReadResume_ends hask h
  constructor
  · rintro ⟨bytes, -, hle, ho⟩
    rwa [Outcome.ret.inj ho]
  · intro hle
    exact ⟨_, hphys, by simpa using hle, by simp⟩

variable {b : Boot} {σ₀ : Kernel} {tr : List (Move Kernel Label)}

/-- In a run, the process that continues in TtyRead has its arguments in its PCB, and its
terminal has an entry in `receive`: terminal 4 wakes no reader. -/
theorem reader_of_run (hok : ∀ a ∈ b.procMallocs, a.ok = true) (h₀ : kernelStart b = some σ₀)
    (h : Run step (fun σ l σ' => σ.Allocates l σ' ∧ σ.IdlePauses l) σ₀ tr σ)
    (hp : σ.activeProc = some p) (hu : σ.userMode = false) (hk : (σ.pcb p).kctxt = .ttyRead t) :
    Asked (σ.pcb p) t (σ.pcb p).uctxt ∧ isTerminal t = true := by
  have hinv := (stacked_of_run hok h₀ h).1
  have hread := readers_of_run hok h₀ h
  have haway : ¬σ.inUser p := by
    rintro ⟨-, hm⟩
    exact absurd (hm.symm.trans hu) (by simp)
  exact ⟨hread.asked p (hinv.live_of_active hp) haway t hk,
    hread.woken p (hinv.live_of_active hp) haway (fun hq => (hinv.io_waiter hq).2.1 hp) t hk⟩

/-- In a run, a process finds another one ready when it calls the kernel. -/
theorem ready_of_run (hok : ∀ a ∈ b.procMallocs, a.ok = true) (h₀ : kernelStart b = some σ₀)
    (h : Run step (fun σ l σ' => σ.Allocates l σ' ∧ σ.IdlePauses l) σ₀ tr σ)
    (hp : σ.activeProc = some p) (hne : p ≠ idle) : 0 < σ.readyQueue.length := by
  have hinv := (stacked_of_run hok h₀ h).1
  have hready := hinv.idleReady.resolve_left fun hn => hne (Option.some.inj (hp.symm.trans hn))
  exact List.length_pos_of_mem hready

/-- A TtyRead that continues keeps to its buffer exactly when `string_len` is no more than it has
asked for. A TtyRead that passes its checks keeps to the tables of the terminals unless it asks
for terminal 4 and nothing is ready; in a run something is, and terminal 4 wakes no reader. A
TtyWrite that passes its checks keeps to them unless it has bytes for terminal 4. -/
theorem tty_bounds_iff (σ : Kernel) (p : Pid) :
    (∀ t o σ', Asked (σ.pcb p) t σ.uContext → σ.sysTtyReadResume p t = some (o, σ') →
      (ReadBounded σ o σ' ↔ (σ.stringLen : Int) ≤ (σ.reg 2).toInt)) ∧
    (σ.sysTtyRead p ≠ some (.ret error, σ) →
      ((∀ i ∈ (σ.ttyReadIndexed p).1, isTerminal i = true) ↔
        (σ.reg 0).toInt ≠ numTerminals ∨ (σ.ioInsert p).1 ≠ 0 ∨ 0 < σ.readyQueue.length)) ∧
    (∀ b σ₀ tr, (∀ a ∈ b.procMallocs, a.ok = true) → kernelStart b = some σ₀ →
      Run step (fun σ l σ' => σ.Allocates l σ' ∧ σ.IdlePauses l) σ₀ tr σ →
      σ.activeProc = some p → (p ≠ idle → 0 < σ.readyQueue.length) ∧
        ∀ t, σ.userMode = false → (σ.pcb p).kctxt = .ttyRead t →
          Asked (σ.pcb p) t (σ.pcb p).uctxt ∧
            ∀ i ∈ (σ.ttyReadResumeIndexed p t).1, isTerminal i = true) ∧
    (σ.sysTtyWrite p ≠ some (.ret error, σ) →
      ((∀ i ∈ (σ.ttyWriteIndexed p).1, isTerminal i = true) ↔
        (σ.reg 2).toInt = 0 ∨ (σ.reg 0).toInt ≠ numTerminals)) ∧
    ∀ t r, (∀ i ∈ (σ.ttyWriteResumeIndexed p t r).1, isTerminal i = true) ↔
      r ≤ 0 ∨ isTerminal t = true := by
  refine ⟨fun t o σ' hask h => readBounded_iff hask h, ttyReadIndexed_iff, ?_, ttyWriteIndexed_iff,
    ttyWriteResumeIndexed_iff σ p⟩
  intro b σ₀ tr hok h₀ hr hp
  refine ⟨ready_of_run hok h₀ hr hp, fun t hu hk => ?_⟩
  obtain ⟨hask, hterm⟩ := reader_of_run hok h₀ hr hp hu hk
  refine ⟨hask, fun i hi => ?_⟩
  rw [ttyReadResumeIndexed_fst] at hi
  rw [List.mem_singleton.1 hi]
  exact hterm

/-- Init of the small machine asks for five bytes, and a line of two arrives. -/
theorem tty_bounds_iff_line : ∃ σ₀ tr σ, kernelStart smallBoot = some σ₀ ∧
    Run step (fun σ l σ' => σ.Allocates l σ' ∧ σ.IdlePauses l) σ₀ tr σ ∧
    (∃ o σ', (σ.callState resumption).sysTtyReadResume 0 0 = some (o, σ') ∧
      (ReadBounded (σ.callState resumption) o σ' ↔
        ((σ.callState resumption).stringLen : Int) ≤ ((σ.callState resumption).reg 2).toInt)) ∧
    ((σ.pcb 0).kctxt = .ttyRead 0 ∧ 0 < σ.readyQueue.length ∧
      ∀ i ∈ (σ.ttyReadResumeIndexed 0 0).1, isTerminal i = true) ∧
    ((∀ i ∈ ((σ₀.callState (smallCall .ttyRead 4 0x100000 5)).ttyReadIndexed 0).1,
        isTerminal i = true) ↔
      ((σ₀.callState (smallCall .ttyRead 4 0x100000 5)).reg 0).toInt ≠ numTerminals ∨
        ((σ₀.callState (smallCall .ttyRead 4 0x100000 5)).ioInsert 0).1 ≠ 0 ∨
          0 < (σ₀.callState (smallCall .ttyRead 4 0x100000 5)).readyQueue.length) ∧
    ((∀ i ∈ ((σ₀.callState (smallCall .ttyWrite 0 0x100000 5)).ttyWriteIndexed 0).1,
        isTerminal i = true) ↔
      ((σ₀.callState (smallCall .ttyWrite 0 0x100000 5)).reg 2).toInt = 0 ∨
        ((σ₀.callState (smallCall .ttyWrite 0 0x100000 5)).reg 0).toInt ≠ numTerminals) := by
  have hcalls : ((kernelStart smallBoot).bind fun σ =>
      ((σ.callState (smallCall .ttyRead 4 0x100000 5)).sysTtyRead 0).bind fun r =>
        ((σ.callState (smallCall .ttyWrite 0 0x100000 5)).sysTtyWrite 0).map fun s =>
          decide (r.1 = .switched ∧ s.1 = .switched)) = some true := by
    decide +kernel
  obtain ⟨σ₀, tr, σ, h₀, hr, hrun⟩ := bootExec_state (b := smallBoot)
    (C := fun σ l σ' => σ.Allocates l σ' ∧ σ.IdlePauses l)
    (t := [smallCall .ttyRead 0 0x100000 5, resumption, lineArrives 0 [97, 98], clockTick])
    (P := fun σ => ((σ.callState resumption).sysTtyReadResume 0 0).isSome = true ∧
      (σ.activeProc = some 0 ∧ σ.userMode = false ∧ (σ.pcb 0).kctxt = .ttyRead 0) ∧
      (((σ.callState resumption).uContext.regs 0).toInt = 0 ∧
        ((σ.callState resumption).pcb 0).buf = (σ.callState resumption).uContext.regs 1 ∧
        ((σ.callState resumption).pcb 0).len = ((σ.callState resumption).uContext.regs 2).toInt ∧
        0 ≤ ((σ.callState resumption).uContext.regs 2).toInt))
    (by decide +kernel)
  obtain ⟨hsome, ⟨hact, hmode, hk⟩, hterminal, hbuf, hlen, hlegal⟩ := hrun
  obtain ⟨⟨o, σ'⟩, hend⟩ := Option.isSome_iff_exists.1 hsome
  obtain ⟨σ₁, h₁, hcalls⟩ := Option.bind_eq_some_iff.1 hcalls
  obtain rfl := Option.some.inj (h₁.symm.trans h₀)
  obtain ⟨⟨o₁, τ₁⟩, hread, hcalls⟩ := Option.bind_eq_some_iff.1 hcalls
  obtain ⟨⟨o₂, τ₂⟩, hwrite, hP⟩ := Option.map_eq_some_iff.1 hcalls
  obtain ⟨rfl, rfl⟩ := of_decide_eq_true hP
  obtain ⟨hready, hreader⟩ := (tty_bounds_iff σ 0).2.2.1 _ _ _ (by decide) h₀ hr hact
  refine ⟨σ₁, tr, σ, h₀, hr, ⟨o, σ', hend, ?_⟩,
    ⟨hk, hready (by decide), (hreader 0 hmode hk).2⟩, ?_, ?_⟩
  · exact (tty_bounds_iff _ 0).1 0 o σ'
      ⟨hterminal, hbuf, hlen, by decide, by decide, hlegal⟩ hend
  · refine (tty_bounds_iff _ 0).2.1 ?_
    rw [hread]
    simp
  · refine (tty_bounds_iff _ 0).2.2.2.1 ?_
    rw [hwrite]
    simp

/-- Init of the small machine asks for one byte, and a line of two arrives: TtyRead writes
three bytes. -/
theorem ttyRead_overruns : ∃ σ₀ tr σ o σ', kernelStart smallBoot = some σ₀ ∧
    Run step (fun _ _ _ => True) σ₀ tr σ ∧ (σ.pcb 0).kctxt = .ttyRead 0 ∧
    (σ.callState resumption).sysTtyReadResume 0 0 = some (o, σ') ∧
      ¬ReadBounded (σ.callState resumption) o σ' := by
  obtain ⟨σ₀, tr, σ, h₀, hr, hk, hlen, hrun⟩ := bootExec_state (b := smallBoot)
    (C := fun _ _ _ => True)
    (t := [smallCall .ttyRead 0 0x100000 1, resumption, lineArrives 0 [97, 98], clockTick])
    (P := fun σ => (σ.pcb 0).kctxt = .ttyRead 0 ∧
      ((σ.callState resumption).reg 2).toInt = 1 ∧
      (((σ.callState resumption).sysTtyReadResume 0 0).map fun r => decide (r.1 = .ret 3)) =
        some true)
    (by decide +kernel)
  obtain ⟨⟨o, σ'⟩, hend, ho⟩ := Option.map_eq_some_iff.1 hrun
  obtain rfl := of_decide_eq_true ho
  refine ⟨σ₀, tr, σ, _, σ', h₀, hr, hk, hend, ?_⟩
  rintro ⟨bytes, -, hle, ho⟩
  have hthree := Outcome.ret.inj ho
  omega

end Kernel

end Yalnix
