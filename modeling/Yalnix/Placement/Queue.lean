import Yalnix.Allocation

/-!
# How operations move processes between queues

`occ σ q` counts the places that process `q` is in. `Requeues d σ τ` describes
the part of a call before it switches: it puts `q` into `d q` more queues than
it takes it out of. `Moves σ σ'` describes a whole call: every process is in as
many places as before. All of this is about steps in which allocations succeed.
-/

namespace Yalnix

/-- 1 at `p`. -/
def one (p q : Pid) : ℕ := if q = p then 1 else 0

@[simp] theorem one_self (p : Pid) : one p p = 1 := if_pos rfl

@[simp] theorem one_of_ne {p q : Pid} (h : q ≠ p) : one p q = 0 := if_neg h

@[simp] theorem count_one (p q : Pid) : [p].count q = one p q := by
  by_cases h : q = p
  · subst h
    simp
  · simp [h, Ne.symm h]

theorem count_cons_one (p q : Pid) (l : List Pid) : (p :: l).count q = l.count q + one p q := by
  rw [← List.singleton_append, List.count_append, count_one, add_comm]

/-- Taking one `p` out of a list. -/
theorem count_erase_one {p : Pid} {l : List Pid} (h : p ∈ l) (q : Pid) :
    (l.erase p).count q + one p q = l.count q := by
  by_cases hq : q = p
  · subst hq
    have hpos := List.count_pos_iff.2 h
    rw [List.count_erase_self, one_self]
    omega
  · rw [List.count_erase_of_ne hq, one_of_ne hq, add_zero]

/-- Taking the first element with a property out of a list. -/
theorem count_eraseP_one {f : Pid → Bool} {l : List Pid} {p : Pid} (h : l.find? f = some p)
    (q : Pid) : (l.eraseP f).count q + one p q = l.count q := by
  induction l with
  | nil => simp at h
  | cons x l ih =>
      cases hx : f x with
      | true =>
          obtain rfl : x = p := by simpa [List.find?_cons, hx] using h
          rw [List.eraseP_cons_of_pos hx, count_cons_one]
      | false =>
          rw [List.eraseP_cons_of_neg (by simp [hx]), count_cons_one, count_cons_one,
            ← ih (by simpa [List.find?_cons, hx] using h)]
          omega

namespace Kernel

/-- How many places `q` is in: `active_proc`, a queue, or the waiting list of an
object. -/
def occ (σ : Kernel) (q : Pid) : ℕ := (if σ.activeProc = some q then 1 else 0) + σ.queued q

/-- Idle runs or can be chosen to run. -/
def IdleReady (σ : Kernel) : Prop := σ.activeProc = some idle ∨ idle ∈ σ.readyQueue

theorem occ_eq_of_active {σ : Kernel} {p : Pid} (h : σ.activeProc = some p) (q : Pid) :
    σ.occ q = one p q + σ.queued q := by
  simp [occ, one, h, eq_comm]

end Kernel

/-! ## Before a switch -/

/-- Processes become ready behind those that are, and none is dispatched. -/
def Feeds (σ τ : Kernel) : Prop :=
  ∃ ps, τ.readyQueue = σ.readyQueue ++ ps ∧ τ.readied = σ.readied ++ ps ∧
    τ.dispatched = σ.dispatched

namespace Feeds

variable {σ σ₁ τ : Kernel}

theorem same (hr : τ.readyQueue = σ.readyQueue) (hn : τ.readied = σ.readied)
    (hd : τ.dispatched = σ.dispatched) : Feeds σ τ :=
  ⟨[], by rw [hr, List.append_nil], by rw [hn, List.append_nil], hd⟩

theorem trans (h : Feeds σ σ₁) (h' : Feeds σ₁ τ) : Feeds σ τ := by
  obtain ⟨ps, hr, hn, hd⟩ := h
  obtain ⟨qs, hr', hn', hd'⟩ := h'
  exact ⟨ps ++ qs, by rw [hr', hr, List.append_assoc], by rw [hn', hn, List.append_assoc],
    hd'.trans hd⟩

theorem of_touches {vs : List View} (h : Touches vs σ τ) (hvs : View.queues ∉ vs) :
    Feeds σ τ := by
  obtain ⟨-, hready, -, hreadied, hdispatched, -⟩ := h.same .queues hvs
  exact .same hready hreadied hdispatched

theorem subset (h : Feeds σ τ) : σ.readyQueue ⊆ τ.readyQueue := by
  obtain ⟨ps, hr, -⟩ := h
  rw [hr]
  exact List.subset_append_left _ _

end Feeds

/-- The active process is the same, no ready process is lost, and `q` is queued
`d q` times more. -/
structure Requeues (d : Pid → ℕ) (σ τ : Kernel) : Prop where
  active : τ.activeProc = σ.activeProc
  fell : τ.fellThrough = σ.fellThrough
  flow : Feeds σ τ
  queued : ∀ q, τ.queued q = σ.queued q + d q
  ok : τ.mem.AllOk

namespace Requeues

variable {σ σ₁ τ : Kernel} {d e : Pid → ℕ} {p : Pid}

theorem ready (h : Requeues d σ τ) : σ.readyQueue ⊆ τ.readyQueue := h.flow.subset

theorem refl (h : σ.mem.AllOk) : Requeues 0 σ σ :=
  ⟨rfl, rfl, .same rfl rfl rfl, fun _ => rfl, h⟩

theorem trans (h : Requeues d σ σ₁) (h' : Requeues e σ₁ τ) : Requeues (d + e) σ τ where
  active := h'.active.trans h.active
  fell := h'.fell.trans h.fell
  flow := h.flow.trans h'.flow
  queued q := by rw [h'.queued, h.queued, Pi.add_apply, add_assoc]
  ok := h'.ok

/-- A call that does not touch the queues, and then one that may. -/
theorem after {vs : List View} (h : Touches vs σ σ₁) (hvs : View.queues ∉ vs)
    (h' : Requeues d σ₁ τ) : Requeues d σ τ := by
  obtain ⟨hactive, -, hfell, -, -, hqueued⟩ := h.same .queues hvs
  exact ⟨h'.active.trans hactive, h'.fell.trans hfell, (Feeds.of_touches h hvs).trans h'.flow,
    fun q => by rw [h'.queued, hqueued], h'.ok⟩

theorem of_touches {vs : List View} (h : Touches vs σ τ) (hq : View.queues ∉ vs)
    (hf : View.frames ∉ vs) (hok : σ.mem.AllOk) : Requeues 0 σ τ :=
  after h hq (refl (h.allOk hf hok))

theorem congr (h : Requeues d σ τ) (hd : d = e) : Requeues e σ τ := hd ▸ h

/-! ### Insertions -/

theorem readyInsert (h : σ.mem.AllOk) (p : Pid) : Requeues (one p) σ (σ.readyInsert p).2 := by
  rw [Kernel.readyInsert_ok h]
  refine ⟨rfl, rfl, ⟨[p], rfl, rfl, rfl⟩, fun q => ?_, h.malloc⟩
  simp only [Kernel.queued, Kernel.blocked, List.count_append, count_one]
  omega

theorem waitInsert (h : σ.mem.AllOk) (p : Pid) : Requeues (one p) σ (σ.waitInsert p).2 := by
  rw [Kernel.waitInsert_ok h]
  refine ⟨rfl, rfl, .same rfl rfl rfl, fun q => ?_, h.malloc⟩
  simp only [Kernel.queued, Kernel.blocked, List.count_append, count_one]
  omega

theorem ioInsert (h : σ.mem.AllOk) (p : Pid) : Requeues (one p) σ (σ.ioInsert p).2 := by
  rw [Kernel.ioInsert_ok h]
  refine ⟨rfl, rfl, .same rfl rfl rfl, fun q => ?_, h.malloc⟩
  simp only [Kernel.queued, Kernel.blocked, List.count_append, count_one]
  omega

theorem insertSleepList (h : σ.mem.AllOk) (p : Pid) (clockTicks : Int) :
    Requeues (one p) σ (σ.insertSleepList p clockTicks).2 := by
  have hs : σ.malloc.2.mem.AllOk := h.malloc
  unfold Kernel.insertSleepList
  dsimp only
  rw [if_pos (show σ.malloc.1.ok = true from h.ok)]
  refine .after ((Kernel.malloc_touches σ).after
    (Kernel.setPcb_touches (p := p) (x := { σ.malloc.2.pcb p with state := .delay })
      rfl rfl rfl rfl))
    (by simp) ?_
  rw [listInsert_last_ok _ _ (show (σ.malloc.2.setPcb p _).mem.AllOk from hs)]
  refine ⟨rfl, rfl, .same rfl rfl rfl, fun q => ?_, hs.malloc⟩
  simp only [Kernel.queued, Kernel.blocked, List.map_append, List.map_cons, List.map_nil,
    List.count_append, count_one]
  omega

theorem pipeWaitInsert (h : σ.mem.AllOk) {a : ℕ} (ha : a ∈ σ.pipes.list) (p : Pid) :
    Requeues (one p) σ (σ.pipeWaitInsert a p) := by
  rw [Kernel.pipeWaitInsert_ok h]
  refine ⟨rfl, rfl, .same rfl rfl rfl, fun q => ?_, h.malloc⟩
  have hsum := Table.sum_write ha { σ.pipes.cell a with
    pipeWaitList := (σ.pipes.cell a).pipeWaitList ++ [p] } fun x => x.pipeWaitList.count q
  simp only [List.count_append, count_one] at hsum
  simp only [Kernel.queued, Kernel.blocked]
  omega

theorem lockWaitInsert (h : σ.mem.AllOk) {a : ℕ} (ha : a ∈ σ.locks.list) (p : Pid) :
    Requeues (one p) σ (σ.lockWaitInsert a p) := by
  rw [Kernel.lockWaitInsert_ok h]
  refine ⟨rfl, rfl, .same rfl rfl rfl, fun q => ?_, h.malloc⟩
  have hsum := Table.sum_write ha { σ.locks.cell a with
    lockWaitList := (σ.locks.cell a).lockWaitList ++ [p] } fun x => x.lockWaitList.count q
  simp only [List.count_append, count_one] at hsum
  simp only [Kernel.queued, Kernel.blocked]
  omega

theorem cvarWaitInsert (h : σ.mem.AllOk) {a : ℕ} (ha : a ∈ σ.cvars.list) (p : Pid) :
    Requeues (one p) σ (σ.cvarWaitInsert a p) := by
  rw [Kernel.cvarWaitInsert_ok h]
  refine ⟨rfl, rfl, .same rfl rfl rfl, fun q => ?_, h.malloc⟩
  have hsum := Table.sum_write ha { σ.cvars.cell a with
    cvarWaitList := (σ.cvars.cell a).cvarWaitList ++ [p] } fun x => x.cvarWaitList.count q
  simp only [List.count_append, count_one] at hsum
  simp only [Kernel.queued, Kernel.blocked]
  omega

theorem semWaitInsert (h : σ.mem.AllOk) {a : ℕ} (ha : a ∈ σ.sems.list) (p : Pid) :
    Requeues (one p) σ (σ.semWaitInsert a p) := by
  rw [Kernel.semWaitInsert_ok h]
  refine ⟨rfl, rfl, .same rfl rfl rfl, fun q => ?_, h.malloc⟩
  have hsum := Table.sum_write ha { σ.sems.cell a with
    waiting := (σ.sems.cell a).waiting ++ [p] } fun x => x.waiting.count q
  simp only [List.count_append, count_one] at hsum
  simp only [Kernel.queued, Kernel.blocked]
  omega

/-! ### Wake-ups -/

/-- A waiting list of the kernel loses its head `q`, which becomes ready. -/
theorem wake {σ' : Kernel} {q : Pid} (hok : σ'.mem.AllOk)
    (hactive : σ'.activeProc = σ.activeProc) (hfell : σ'.fellThrough = σ.fellThrough)
    (hready : σ'.readyQueue = σ.readyQueue) (hreadied : σ'.readied = σ.readied)
    (hdispatched : σ'.dispatched = σ.dispatched)
    (hblocked : ∀ r, σ'.blocked r + one q r = σ.blocked r) :
    Requeues 0 σ (σ'.readyInsert q).2 := by
  have hi := readyInsert hok q
  refine ⟨hi.active.trans hactive, hi.fell.trans hfell,
    (Feeds.same hready hreadied hdispatched).trans hi.flow, fun r => ?_, hi.ok⟩
  have hb := hblocked r
  rw [hi.queued, Kernel.queued, Kernel.queued, hready, Pi.zero_apply]
  omega

theorem wakePipe (h : σ.mem.AllOk) {a : ℕ} (ha : a ∈ σ.pipes.list) :
    Requeues 0 σ (σ.wakePipe a) := by
  unfold Kernel.wakePipe
  dsimp only
  cases hl : (σ.pipes.cell a).pipeWaitList with
  | nil => simpa using refl h
  | cons q l =>
      rw [listRemove_cons_one]
      refine wake (by exact h) rfl rfl rfl rfl rfl fun r => ?_
      have hsum := Table.sum_write ha { σ.pipes.cell a with pipeWaitList := l }
        fun x => x.pipeWaitList.count r
      simp only [hl, count_cons_one] at hsum
      simp only [Kernel.blocked]
      omega

theorem sysRelease (h : σ.mem.AllOk) (p : Pid) (lockId : Int) :
    Requeues 0 σ (σ.sysRelease p lockId).2 := by
  unfold Kernel.sysRelease
  split
  · exact refl h
  rename_i a hfind
  have ha := Table.mem_of_find? hfind
  dsimp only
  cases hl : (σ.locks.cell a).lockWaitList with
  | nil =>
      rw [listRemove_nil]
      refine ⟨rfl, rfl, .same rfl rfl rfl, fun r => ?_, by exact h⟩
      have hsum := Table.sum_write ha { σ.locks.cell a with locked := false, pid := 0 }
        fun x => x.lockWaitList.count r
      simp only [hl] at hsum
      simp only [Kernel.queued, Kernel.blocked, Pi.zero_apply]
      omega
  | cons q l =>
      rw [listRemove_cons_one]
      refine wake (by exact h) rfl rfl rfl rfl rfl fun r => ?_
      have hsum := Table.sum_write ha { σ.locks.cell a with
        locked := false, pid := q, lockWaitList := l } fun x => x.lockWaitList.count r
      simp only [hl, count_cons_one] at hsum
      simp only [Kernel.blocked]
      omega

theorem sysCvarSignal (h : σ.mem.AllOk) {o : Outcome} (hs : σ.sysCvarSignal p = some (o, τ)) :
    Requeues 0 σ τ := by
  unfold Kernel.sysCvarSignal at hs
  dsimp only at hs
  split at hs
  · obtain ⟨-, rfl⟩ := Prod.mk.inj (Option.some.inj hs)
    exact refl h
  split at hs
  · obtain ⟨-, rfl⟩ := Prod.mk.inj (Option.some.inj hs)
    exact refl h
  rename_i a hfind
  have ha := Table.mem_of_find? hfind
  cases hl : (σ.cvars.cell a).cvarWaitList with
  | nil =>
      rw [hl, listRemove_nil] at hs
      obtain ⟨-, rfl⟩ := Prod.mk.inj (Option.some.inj hs)
      exact refl h
  | cons q l =>
      rw [hl, listRemove_cons_one] at hs
      have hwake : Requeues 0 σ (Kernel.readyInsert { σ with
          cvars := σ.cvars.write a { σ.cvars.cell a with cvarWaitList := l } } q).2 := by
        refine wake (by exact h) rfl rfl rfl rfl rfl fun r => ?_
        have hsum := Table.sum_write ha { σ.cvars.cell a with cvarWaitList := l }
          fun x => x.cvarWaitList.count r
        simp only [hl, count_cons_one] at hsum
        simp only [Kernel.blocked]
        omega
      dsimp only at hs
      split at hs
      · obtain ⟨-, rfl⟩ := Prod.mk.inj (Option.some.inj hs)
        exact hwake
      · obtain ⟨-, rfl⟩ := Prod.mk.inj (Option.some.inj hs)
        exact hwake

/-- All processes of the list become ready. -/
theorem wakeAll (h : σ.mem.AllOk) (l : List Pid) :
    (Kernel.wakeAll l σ).1 = 0 ∧ (Kernel.wakeAll l σ).2.1 = [] ∧
      Requeues (fun q => l.count q) σ (Kernel.wakeAll l σ).2.2 := by
  induction l generalizing σ with
  | nil => exact ⟨rfl, rfl, (refl h).congr (by ext q; simp)⟩
  | cons p l ih =>
      have hp := readyInsert h p
      have hrc : (σ.readyInsert p).1 = 0 := by rw [Kernel.readyInsert_ok h]
      unfold Kernel.wakeAll
      dsimp only
      rw [if_neg (not_not.2 hrc)]
      obtain ⟨hrc', hnil, hl⟩ := ih hp.ok
      refine ⟨hrc', hnil, (hp.trans hl).congr ?_⟩
      ext q
      rw [Pi.add_apply, count_cons_one, add_comm]

theorem sysCvarBroadcast (h : σ.mem.AllOk) {o : Outcome}
    (hs : σ.sysCvarBroadcast p = some (o, τ)) : Requeues 0 σ τ := by
  unfold Kernel.sysCvarBroadcast at hs
  dsimp only at hs
  split at hs
  · obtain ⟨-, rfl⟩ := Prod.mk.inj (Option.some.inj hs)
    exact refl h
  split at hs
  · obtain ⟨-, rfl⟩ := Prod.mk.inj (Option.some.inj hs)
    exact refl h
  rename_i a hfind
  have ha := Table.mem_of_find? hfind
  obtain ⟨-, hnil, hw⟩ := wakeAll h (σ.cvars.cell a).cvarWaitList
  have hcvars := Kernel.wakeAll_cvars (σ.cvars.cell a).cvarWaitList σ
  obtain ⟨-, rfl⟩ := Prod.mk.inj (Option.some.inj hs)
  refine ⟨hw.active, hw.fell, hw.flow, fun q => ?_, hw.ok⟩
  have hq := hw.queued q
  have hsum := Table.sum_write ha { σ.cvars.cell a with cvarWaitList := [] }
    fun x => x.cvarWaitList.count q
  simp only [List.count_nil] at hsum
  simp only [hnil, hcvars, Kernel.queued, Kernel.blocked, Pi.zero_apply] at hq ⊢
  omega

theorem sysCustom0 (h : σ.mem.AllOk) {o : Outcome} (hs : σ.sysCustom0 p = some (o, τ)) :
    Requeues 0 σ τ := by
  unfold Kernel.sysCustom0 at hs
  dsimp only at hs
  have hmalloc : ∀ σ : Kernel, Touches [] σ σ.malloc.2 := Kernel.malloc_touches
  have hsem : Touches [.sems] σ.malloc.2 { σ.malloc.2 with nextSem := σ.nextSem + 1 } :=
    .nextSem _
  split at hs
  · obtain ⟨-, rfl⟩ := Prod.mk.inj (Option.some.inj hs)
    exact of_touches (hmalloc σ) (by simp) (by simp) h
  have hhead := ((hmalloc σ).after hsem).trans ((hmalloc _).mono (by simp))
  split at hs
  · obtain ⟨-, rfl⟩ := Prod.mk.inj (Option.some.inj hs)
    exact of_touches hhead (by simp) (by simp) h
  have hnode := of_touches (hhead.trans ((hmalloc _).mono (by simp))) (by simp) (by simp) h
  obtain ⟨-, rfl⟩ := Prod.mk.inj (Option.some.inj hs)
  split
  · refine ⟨hnode.active, hnode.fell, hnode.flow, fun q => ?_, hnode.ok⟩
    rw [← hnode.queued q]
    simp [Kernel.queued, Kernel.blocked, Table.sum_alloc]
  · exact hnode

theorem sysCustom1 (h : σ.mem.AllOk) {o : Outcome} (hs : σ.sysCustom1 p = some (o, τ)) :
    Requeues 0 σ τ := by
  unfold Kernel.sysCustom1 at hs
  obtain ⟨a, hfind, hs⟩ := Option.map_eq_some_iff.1 hs
  have ha := Table.mem_of_find? hfind
  dsimp only at hs
  split at hs
  · obtain ⟨-, rfl⟩ := Prod.mk.inj hs
    refine ⟨rfl, rfl, .same rfl rfl rfl, fun q => ?_, by exact h⟩
    have hsum := Table.sum_write ha { σ.sems.cell a with
      count := (σ.sems.cell a).count + 1 } fun x => x.waiting.count q
    dsimp only at hsum
    simp only [Kernel.queued, Kernel.blocked, Pi.zero_apply]
    omega
  · rename_i q l hremove
    obtain ⟨-, rfl⟩ := Prod.mk.inj hs
    split at hremove
    · cases hl : (σ.sems.cell a).waiting with
      | nil => simp [hl] at hremove
      | cons q' l' =>
          rw [hl, listRemove_cons_one] at hremove
          obtain ⟨rfl, rfl⟩ := Prod.mk.inj (Option.some.inj hremove)
          refine wake (by exact h) rfl rfl rfl rfl rfl fun r => ?_
          have hsum := Table.sum_write ha { σ.sems.cell a with
            count := (σ.sems.cell a).count + 1, waiting := l' } fun x => x.waiting.count r
          simp only [hl, count_cons_one] at hsum
          simp only [Kernel.blocked]
          omega
    · exact absurd hremove (by simp)

/-- The sleepers whose time is up become ready. -/
theorem tickSleepers (h : σ.mem.AllOk) (l : List SleepInfo) :
    ∃ d, Requeues d σ (Kernel.tickSleepers l σ).2 ∧ ∀ q,
      d q + ((Kernel.tickSleepers l σ).1.map SleepInfo.pcb).count q =
        (l.map SleepInfo.pcb).count q := by
  induction l generalizing σ with
  | nil => exact ⟨0, refl h, fun q => by simp [Kernel.tickSleepers]⟩
  | cons s l ih =>
      unfold Kernel.tickSleepers
      dsimp only
      split
      · have hset : Touches [.states] σ (σ.setPcb s.pcb { σ.pcb s.pcb with state := .ready }) :=
          Kernel.setPcb_touches rfl rfl rfl rfl
        have hp := after hset (by simp) (readyInsert (hset.allOk (by simp) h) s.pcb)
        obtain ⟨d, hd, hcount⟩ := ih hp.ok
        refine ⟨_, hp.trans hd, fun q => ?_⟩
        have hq := hcount q
        dsimp only at hq
        rw [List.map_cons, count_cons_one, Pi.add_apply]
        omega
      · obtain ⟨d, hd, hcount⟩ := ih h
        refine ⟨d, hd, fun q => ?_⟩
        have hq := hcount q
        simp only [List.map_cons, count_cons_one]
        omega

theorem updateSleepList (h : σ.mem.AllOk) : Requeues 0 σ σ.updateSleepList := by
  rw [Kernel.updateSleepList_eq]
  obtain ⟨d, hd, hcount⟩ := tickSleepers h σ.sleepList
  refine ⟨hd.active, hd.fell, hd.flow, fun q => ?_, hd.ok⟩
  have hq := hd.queued q
  have hc := hcount q
  have hsleep := Kernel.tickSleepers_sleepList σ.sleepList σ
  simp only [Kernel.queued, Kernel.blocked, Pi.zero_apply] at hq ⊢
  rw [hsleep] at hq
  omega

theorem trapTtyReceiveHdl (h : σ.mem.AllOk) (hs : σ.trapTtyReceiveHdl = some τ) :
    Requeues 0 σ τ := by
  unfold Kernel.trapTtyReceiveHdl at hs
  dsimp only at hs
  split at hs
  swap
  · exact absurd hs (by simp)
  refine after (Kernel.receiveLine_touches σ σ.uContext.code.toInt) (by simp) ?_
  have hok : (σ.receiveLine σ.uContext.code.toInt).mem.AllOk := h
  generalize σ.receiveLine σ.uContext.code.toInt = σ₁ at hs hok
  cases hl : σ₁.ioList with
  | nil =>
      rw [hl, listRemove_nil] at hs
      obtain rfl := Option.some.inj hs
      exact refl hok
  | cons q l =>
      rw [hl, listRemove_cons_one] at hs
      dsimp only at hs
      split at hs
      · obtain rfl := Option.some.inj hs
        refine wake (by exact hok) rfl rfl rfl rfl rfl fun r => ?_
        simp only [Kernel.blocked, hl, count_cons_one]
        omega
      · exact absurd hs (by simp)

theorem trapTtyTransmitHdl (h : σ.mem.AllOk) (hs : σ.trapTtyTransmitHdl = some τ) :
    Requeues 0 σ τ := by
  unfold Kernel.trapTtyTransmitHdl at hs
  dsimp only at hs
  split at hs
  swap
  · exact absurd hs (by simp)
  split at hs
  · obtain rfl := Option.some.inj hs
    exact ⟨rfl, rfl, .same rfl rfl rfl, fun _ => rfl, h⟩
  · rename_i q hfind
    obtain rfl := Option.some.inj hs
    refine wake (by exact h) rfl rfl rfl rfl rfl fun r => ?_
    have hcount := count_eraseP_one hfind r
    simp only [Kernel.blocked]
    omega

end Requeues

/-! ## Switching -/

/-- The processes of a list other than idle. -/
def others (l : List Pid) : List Pid := l.filter fun q => q ≠ idle

theorem others_append (l l' : List Pid) : others (l ++ l') = others l ++ others l' :=
  List.filter_append ..

@[simp] theorem others_idle : others [idle] = [] := by decide

theorem mem_others {q : Pid} {l : List Pid} : q ∈ others l ↔ q ∈ l ∧ q ≠ idle := by
  simp [others]

/-- Apart from idle, the ready processes and those that become ready are, in this
order, the ones that are dispatched and those that are still ready. At most one is
dispatched, it runs, and it is not idle when another one is ready. -/
def Flows (σ τ : Kernel) : Prop :=
  ∃ ps ds, τ.readied = σ.readied ++ ps ∧ τ.dispatched = σ.dispatched ++ ds ∧
    others σ.readyQueue ++ others ps = others ds ++ others τ.readyQueue ∧
      (ds = [] ∨ ∃ next, ds = [next] ∧ τ.activeProc = some next ∧
        (next = idle → idle ∈ τ.readyQueue ∨ others τ.readyQueue = []))

namespace Flows

variable {σ σ₁ τ : Kernel}

theorem of_feeds (h : Feeds σ τ) : Flows σ τ := by
  obtain ⟨ps, hr, hn, hd⟩ := h
  exact ⟨ps, [], hn, by rw [hd, List.append_nil], by rw [hr, others_append]; rfl, .inl rfl⟩

theorem after (h : Feeds σ σ₁) (h' : Flows σ₁ τ) : Flows σ τ := by
  obtain ⟨ps, hr, hn, hd⟩ := h
  obtain ⟨qs, ds, hn', hd', hlaw, hnext⟩ := h'
  refine ⟨ps ++ qs, ds, ?_, by rw [hd', hd], ?_, hnext⟩
  · rw [hn', hn, List.append_assoc]
  · rw [← hlaw, hr, others_append, others_append, List.append_assoc]

/-- What comes after a switch and does not touch the queues. -/
theorem seq {vs : List View} (h : Flows σ σ₁) (h' : Touches vs σ₁ τ)
    (hvs : View.queues ∉ vs) : Flows σ τ := by
  obtain ⟨hactive, hready, -, hreadied, hdispatched, -⟩ := h'.same .queues hvs
  unfold Flows
  rw [hactive, hready, hreadied, hdispatched]
  exact h

/-- A process that was ready still is, or it has been dispatched. -/
theorem ready (h : Flows σ τ) {q : Pid} (hq : q ∈ σ.readyQueue) (hne : q ≠ idle) :
    q ∈ τ.readyQueue ∨ τ.activeProc = some q := by
  obtain ⟨ps, ds, -, -, hlaw, hnext⟩ := h
  have hmem : q ∈ others ds ++ others τ.readyQueue := by
    rw [← hlaw]
    exact List.mem_append_left _ (mem_others.2 ⟨hq, hne⟩)
  rcases List.mem_append.1 hmem with hd | hr
  · rcases hnext with rfl | ⟨next, rfl, hactive, -⟩
    · exact absurd hd (by simp [others])
    · obtain rfl : q = next := by simpa using (mem_others.1 hd).1
      exact .inr hactive
  · exact .inl (mem_others.1 hr).1

end Flows

namespace Kernel

variable {σ σ' : Kernel}

theorem contextSwitch_queues {old : Option Pid} {new : Pid} {k : KernelContext}
    (h : σ.contextSwitch old new k = some σ') :
    σ'.activeProc = some new ∧ σ'.readyQueue = σ.readyQueue ∧
      σ'.fellThrough = σ.fellThrough ∧ σ'.readied = σ.readied ∧
      σ'.dispatched = σ.dispatched ++ [new] ∧ ∀ q, σ'.queued q = σ.queued q := by
  unfold contextSwitch at h
  split at h
  · exact absurd h (by simp)
  obtain ⟨τ, hτ, rfl⟩ := Option.map_eq_some_iff.1 h
  have hsave := saveUser_touches { σ with
    activeProc := some new, dispatched := σ.dispatched ++ [new] } old
  have hinit : Touches [.contexts] (saveUser { σ with
      activeProc := some new, dispatched := σ.dispatched ++ [new] } old) τ := by
    split at hτ
    · exact initProcKernel_touches hτ ‹_›
    · obtain rfl := Option.some.inj hτ
      exact .refl _ _
  have hend : Touches [.contexts, .users] { σ with
        activeProc := some new, dispatched := σ.dispatched ++ [new] }
      { τ.saveKernel k old with userMode := false } :=
    ((hsave.mono (by simp)).trans (hinit.mono (by simp))).trans
      (((saveKernel_touches τ k old).trans ((Touches.hidden ..).mono (List.nil_subset _))).mono
        (by simp))
  exact hend.same .queues (by simp)

/-- What `nextReady` leaves once `next` has been taken out of `ready_queue`. -/
structure Picks (σ τ : Kernel) (next : Pid) : Prop where
  active : τ.activeProc = σ.activeProc
  fell : τ.fellThrough = σ.fellThrough
  queued : ∀ q, τ.queued q + one next q = σ.queued q
  idleReady : idle ∈ σ.readyQueue → next = idle ∨ idle ∈ τ.readyQueue
  readied : ∃ ps, τ.readied = σ.readied ++ ps ∧ others ps = []
  dispatched : τ.dispatched = σ.dispatched
  order : others σ.readyQueue = others [next] ++ others τ.readyQueue
  last : next = idle → idle ∈ τ.readyQueue ∨ others τ.readyQueue = []

/-- The next process to run is taken out of `ready_queue`. -/
theorem nextReady_ok (hok : σ.mem.AllOk) (hne : σ.readyQueue ≠ []) :
    ∃ next, σ.nextReady.1 = some next ∧ Picks σ σ.nextReady.2 next := by
  unfold nextReady
  cases hr : σ.readyQueue with
  | nil => exact absurd hr hne
  | cons p l =>
      rw [listRemove_cons_one]
      dsimp only
      split
      · rename_i hp
        subst hp
        have hok' : Mem.AllOk { σ with readyQueue := l }.mem := hok
        rw [readyInsert_ok hok']
        cases l with
        | nil =>
            dsimp only [List.nil_append]
            rw [listRemove_cons_one]
            refine ⟨idle, rfl, rfl, rfl, fun q => ?_, fun _ => .inl rfl,
              ⟨[idle], rfl, others_idle⟩, rfl, ?_, fun _ => .inr rfl⟩
            · simp only [queued, blocked, hr, count_cons_one]
              omega
            · rw [hr]
              rfl
        | cons p' l' =>
            dsimp only [List.cons_append]
            rw [listRemove_cons_one]
            refine ⟨p', rfl, rfl, rfl, fun q => ?_, fun _ => .inr (by simp),
              ⟨[idle], rfl, others_idle⟩, rfl, ?_, fun _ => .inl (by simp)⟩
            · simp only [queued, blocked, hr, count_cons_one, List.count_append, List.count_nil]
              omega
            · rw [hr]
              change _ = others [p'] ++ others (l' ++ [idle])
              rw [others_append, others_idle, List.append_nil, ← others_append]
              rfl
      · rename_i hp
        refine ⟨p, rfl, rfl, rfl, fun q => ?_, fun hi => .inr ?_,
          ⟨[], by simp, rfl⟩, rfl, ?_, fun he => absurd he hp⟩
        · simp only [queued, blocked, hr, count_cons_one]
          omega
        · rw [hr] at hi
          exact (List.mem_cons.1 hi).resolve_left (Ne.symm hp)
        · rw [hr, ← others_append, List.singleton_append]

/-- A switch to the process that `nextReady` has chosen. -/
theorem Picks.flows {τ : Kernel} {next : Pid} (h : Picks σ τ next) {old : Option Pid}
    {k : KernelContext} (hs : τ.contextSwitch old next k = some σ') : Flows σ σ' := by
  obtain ⟨hactive, hready, -, hreadied, hdispatched, -⟩ := contextSwitch_queues hs
  obtain ⟨ps, hps, hidle⟩ := h.readied
  refine ⟨ps, [next], hreadied.trans hps, ?_, ?_, .inr ⟨next, rfl, hactive, ?_⟩⟩
  · rw [hdispatched, h.dispatched]
  · rw [hidle, List.append_nil, hready]
    exact h.order
  · rw [hready]
    exact h.last

/-- With idle ready, `normal_schedule` switches. -/
theorem normalSchedule_ok {k : KernelContext} {r : Sched × Kernel} (hok : σ.mem.AllOk)
    (hi : idle ∈ σ.readyQueue) (h : σ.normalSchedule k = some r) :
    r.1 = .switched ∧ Flows σ r.2 ∧ ∃ next, r.2.activeProc = some next ∧
      r.2.fellThrough = σ.fellThrough ∧ (∀ q, r.2.queued q + one next q = σ.queued q) ∧
      (next = idle ∨ idle ∈ r.2.readyQueue) := by
  obtain ⟨next, hnext, hpicks⟩ := nextReady_ok hok (List.ne_nil_of_mem hi)
  unfold normalSchedule at h
  rw [if_pos (List.length_pos_of_mem hi)] at h
  generalize σ.nextReady = n at h hnext hpicks
  obtain ⟨n₁, τ⟩ := n
  obtain rfl : n₁ = some next := hnext
  obtain ⟨τ', hτ, rfl⟩ := Option.map_eq_some_iff.1 h
  obtain ⟨hactive', hready', hfell', -, -, hqueued'⟩ := contextSwitch_queues hτ
  refine ⟨rfl, hpicks.flows hτ, next, hactive', hfell'.trans hpicks.fell, fun q => ?_, ?_⟩
  · rw [hqueued' q]
    exact hpicks.queued q
  · rw [hready']
    exact hpicks.idleReady hi

end Kernel

/-! ## Whole calls -/

/-- Every process is in as many places as before, and idle stays ready. -/
structure Moves (σ σ' : Kernel) : Prop where
  occ : ∀ q, σ'.occ q = σ.occ q
  fell : σ'.fellThrough = σ.fellThrough
  idleReady : σ.IdleReady → σ'.IdleReady
  active : σ'.activeProc = none → σ.activeProc = none
  flow : Flows σ σ'

namespace Moves

variable {σ σ' τ : Kernel} {p : Pid} {o : Outcome}

theorem of_requeues (h : Requeues 0 σ τ) : Moves σ τ where
  occ q := by
    rw [Kernel.occ, Kernel.occ, h.active, h.queued, Pi.zero_apply, add_zero]
  fell := h.fell
  idleReady := by
    unfold Kernel.IdleReady
    rw [h.active]
    exact Or.imp_right (h.ready ·)
  active := by
    rw [h.active]
    exact id
  flow := .of_feeds h.flow

theorem of_touches {vs : List View} (h : Touches vs σ τ) (hvs : View.queues ∉ vs) :
    Moves σ τ := by
  have hflow := Flows.of_feeds (.of_touches h hvs)
  obtain ⟨hactive, hready, hfell, -, -, hqueued⟩ := h.same .queues hvs
  refine ⟨fun q => ?_, hfell, ?_, ?_, hflow⟩
  · rw [Kernel.occ, Kernel.occ, hactive, hqueued]
  · unfold Kernel.IdleReady
    rw [hactive, hready]
    exact id
  · rw [hactive]
    exact id

theorem refl (σ : Kernel) : Moves σ σ := .of_touches (.refl [] σ) (by simp)

/-- The result of a call that has only moved processes between queues. -/
theorem ret {α : Type} {x y : α} (h : Moves σ τ) (he : some (x, τ) = some (y, σ')) :
    Moves σ σ' := by
  obtain ⟨-, rfl⟩ := Prod.mk.inj (Option.some.inj he)
  exact h

/-- The active process, which is not idle, is put into one queue and blocks. -/
theorem block {k : KernelContext} {after : Kernel → Option (Outcome × Kernel)}
    (ha : σ.activeProc = some p) (hi : idle ∈ σ.readyQueue) (hq : Requeues (one p) σ τ)
    (h : τ.block k after = some (o, σ')) : Moves σ σ' ∧ o = .switched := by
  unfold Kernel.block at h
  obtain ⟨r, hr, h⟩ := Option.bind_eq_some_iff.1 h
  obtain ⟨hs, hflow, next, hactive, hfell, hqueued, hidle⟩ :=
    Kernel.normalSchedule_ok hq.ok (hq.ready hi) hr
  rw [hs] at h
  obtain ⟨rfl, rfl⟩ := Prod.mk.inj (Option.some.inj h)
  refine ⟨⟨fun q => ?_, hfell.trans hq.fell, fun _ => ?_, fun hn => ?_, .after hq.flow hflow⟩,
    rfl⟩
  · rw [Kernel.occ_eq_of_active hactive, Kernel.occ_eq_of_active ha, add_comm, hqueued,
      hq.queued, add_comm]
  · exact hidle.imp_left fun hn => hactive.trans (congrArg some hn)
  · rw [hactive] at hn
    exact absurd hn (by simp)

theorem doScheduler {r : Sched × Kernel} (ha : σ.activeProc = some p) (hok : σ.mem.AllOk)
    (h : σ.doScheduler = some r) : Moves σ r.2 := by
  unfold Kernel.doScheduler at h
  split at h
  swap
  · obtain rfl := Option.some.inj h
    exact refl σ
  have hq := Requeues.readyInsert hok p
  have hmem : ∀ q, q = p ∨ q ∈ σ.readyQueue → q ∈ (σ.readyInsert p).2.readyQueue := by
    rw [Kernel.readyInsert_ok hok]
    rintro q (rfl | hq)
    · simp
    · simp [hq]
  obtain ⟨next, hnext, hpicks⟩ :=
    Kernel.nextReady_ok hq.ok (List.ne_nil_of_mem (hmem p (.inl rfl)))
  rw [ha] at h
  dsimp only [Option.getD_some] at h
  generalize ((σ.readyInsert p).2).nextReady = n at h hnext hpicks
  obtain ⟨n₁, τ⟩ := n
  obtain rfl : n₁ = some next := hnext
  obtain ⟨τ', hτ, rfl⟩ := Option.map_eq_some_iff.1 h
  obtain ⟨hactive', hready', hfell', -, -, hqueued'⟩ := Kernel.contextSwitch_queues hτ
  refine ⟨fun q => ?_, hfell'.trans (hpicks.fell.trans hq.fell), fun hi => ?_, fun hn => ?_,
    .after hq.flow (hpicks.flows hτ)⟩
  · have h₁ := hpicks.queued q
    have h₂ := hq.queued q
    have h₃ := hqueued' q
    rw [Kernel.occ_eq_of_active hactive', Kernel.occ_eq_of_active ha]
    dsimp only at h₁ h₃ ⊢
    omega
  · have hi' : idle ∈ (σ.readyInsert p).2.readyQueue :=
      hmem idle (hi.imp_left fun h => (Option.some.inj (ha.symm.trans h)).symm)
    rw [Kernel.IdleReady, hready']
    exact (hpicks.idleReady hi').imp_left fun hn => hactive'.trans (congrArg some hn)
  · exact absurd (hactive'.symm.trans hn) (by simp)

end Moves

end Yalnix
