import Yalnix.Placement.Context
import Yalnix.Tree.Links
import Yalnix.Tree.Reaping

/-!
# When Wait fails

A process that continues after a blocking Wait has been woken by the Exit of a
child, whose record is still there: `Expects` is the invariant. A Wait from its
start looks at the list of children first, so it fails for a parent whose
children have all exited, although their records are there.
-/

namespace Yalnix

open Transition

namespace Kernel

/-! ## The invariant -/

/-- A process that is in the middle of Wait sleeps in `wait_list`, or has a record
to reap. What is left of an earlier Wait does not count in user code. -/
structure Expects (σ : Kernel) : Prop where
  unborn : ∀ q, σ.nextPid ≤ q → (σ.pcb q).kctxt = .kernelStart
  record : ∀ q ∈ σ.live, ∀ s i, (σ.pcb q).kctxt = .wait s i →
    q ∈ σ.waitList ∨ σ.inUser q ∨ ∃ d, some d ∈ σ.deadList ∧ d.ppid = q

variable {σ σ' : Kernel} {l : Label}

/-- Records of processes that do not run stay. -/
theorem DeadStep.keeps (hs : DeadStep σ σ' l) (hc : σ.CountsFromOne l) {d : DeadInfo}
    (hd : some d ∈ σ.deadList) (hq : σ.activeProc ≠ some d.ppid) : some d ∈ σ'.deadList := by
  cases hs with
  | same reaped pids deadList => rwa [deadList]
  | fork reaped nextPid live deadList => rwa [deadList]
  | exit p ppid status reaped active pids deadList =>
      rcases deadList with h | h
      · rwa [h]
      · rw [h]
        exact List.mem_append_left _ hd
  | reap p statusPtr i k d' active ptr outcome counter pids record stored deadList =>
      obtain rfl := Ledger.counter hc active record counter
      rw [deadList, freeDead_one record.at_index]
      obtain ⟨j, hj⟩ := List.mem_iff_getElem?.1 hd
      refine List.mem_eraseIdx_iff_getElem?.2 ⟨j, ?_, hj⟩
      rintro rfl
      rw [record.at_index] at hj
      obtain rfl := Option.some.inj (Option.some.inj hj)
      exact hq (active.trans (congrArg some record.parent.symm))

/-- Only the record of a child wakes a process that sleeps in `wait_list`. -/
theorem TreeStep.wakes (hs : TreeStep σ σ' l) (hinv : σ.Placed) {q : Pid}
    (hq : q ∈ σ.waitList) : q ∈ σ'.waitList ∨ ∃ d, some d ∈ σ'.deadList ∧ d.ppid = q := by
  cases hs with
  | same pids tree => exact .inl (tree.2.2 ▸ hq)
  | fork p active nextPid live family deadList waitList => exact .inl (waitList ▸ hq)
  | exit p status active pids family deadList waitList =>
      by_cases hpp : q = ((σ.begin l).bereaved p p).ppid
      · have hne : ((σ.begin l).bereaved p p).ppid ≠ -1 := by
          intro he
          have hnn := (hinv.bound q (hinv.live_of_wait hq).1).1
          rw [hpp, he] at hnn
          exact absurd hnn (by decide)
        rw [if_neg hne] at deadList
        refine .inr ⟨⟨((σ.begin l).bereaved p p).ppid, p, status⟩, ?_, hpp.symm⟩
        rw [deadList]
        simp
      · rw [waitList]
        exact .inl ((List.mem_erase_of_ne hpp).2 hq)
  | sleep p active call pids family deadList waitList =>
      rw [waitList]
      exact .inl (List.mem_append_left _ hq)
  | reap p k i active pids family deadList waitList => exact .inl (waitList ▸ hq)

theorem TreeStep.live_or (hs : TreeStep σ σ' l) {q : Pid} (hq : q ∈ σ'.live) :
    q ∈ σ.live ∨ q = σ.nextPid := by
  cases hs with
  | same pids tree => exact .inl (pids.2 ▸ hq)
  | fork p active nextPid live =>
      rw [live] at hq
      simpa using hq
  | exit p status active pids =>
      rw [pids.2] at hq
      exact .inl (List.mem_of_mem_erase hq)
  | sleep p active call pids => exact .inl (pids.2 ▸ hq)
  | reap p k i active pids => exact .inl (pids.2 ▸ hq)

theorem TreeStep.nextPid_le (hs : TreeStep σ σ' l) : σ.nextPid ≤ σ'.nextPid := by
  cases hs with
  | same pids => exact pids.1.ge
  | fork p active nextPid => omega
  | exit p status active pids => exact pids.1.ge
  | sleep p active call pids => exact pids.1.ge
  | reap p k i active pids => exact pids.1.ge

/-- The process that has run is in user code, or it has exited, or it sleeps in
Wait, or it is in the middle of something else. -/
theorem step_parks (hinv : σ.Placed) (h : Steps σ l σ') (ha : σ.Allocates l σ')
    (hi : σ.IdlePauses l) {p : Pid} (hp : σ.activeProc = some p) :
    σ'.inUser p ∨ p ∉ σ'.live ∨ p ∈ σ'.waitList ∨ ∀ s i, (σ'.pcb p).kctxt ≠ .wait s i := by
  rcases step_leaves hinv h ha hp with hu | ⟨hk, -⟩ | hlive
  swap
  · by_cases hw : l.call = some .wait
    · obtain ⟨u, r, o, τ, hl, hv, hr, hcall, rfl, -⟩ := h.of_call hw
      obtain rfl := Option.some.inj (hp.symm.trans hr)
      have hcalling := hinv.calling (enter_touches σ l u) ha.begin hp (hi.ne hl hp (by simp [hv]))
      have hpark := sysCall_parks (σ := (σ.begin l).enter u) hp (by simp) hcall
      rcases sysWait_cases hcalling hcall with
        ⟨rfl, -⟩ | ⟨-, -, ⟨k, d, rfl, -⟩ | ⟨-, rfl, -, -, hwait⟩⟩
      · exact .inl ⟨hpark.stays (by simp), rfl⟩
      · exact .inl ⟨hpark.stays (by simp), rfl⟩
      · refine .inr (.inr (.inl ?_))
        change p ∈ τ.waitList
        rw [hwait]
        simp
    · refine .inr (.inr (.inr fun s i hki => ?_))
      rw [hki] at hk
      rcases hk with ⟨c, hc, hk⟩ | ⟨-, hk⟩ | ⟨-, hk⟩
      · cases c <;> simp [blockPlaces] at hk hw hc
        exact hw hc
      · simp at hk
      · cases hkp : (σ.pcb p).kctxt <;> simp [hkp, blocksAgain] at hk
  · exact .inl hu
  · exact .inr (.inl hlive)

theorem Expects.step (h : σ.Expects) (hinv : σ.Placed) (hsteps : Steps σ l σ')
    (ha : σ.Allocates l σ') (hi : σ.IdlePauses l) (hc : σ.CountsFromOne l) : σ'.Expects := by
  have htree := tree_step hinv hsteps ha hi
  have hdead := dead_step hsteps
  have hctx := step_suspends hsteps
  constructor
  · intro q hq
    have hq' : σ.nextPid ≤ q := le_trans htree.nextPid_le hq
    rcases hctx.kctxt q with hk | ⟨hactive, -⟩ | ⟨hk, -⟩
    · rw [hk]
      exact h.unborn q hq'
    · exact absurd (hinv.bound q (hinv.live_of_active hactive)).2 (not_lt.2 hq')
    · exact hk
  · intro q hq s i hk
    by_cases hactive : σ.activeProc = some q
    · rcases step_parks hinv hsteps ha hi hactive with hu | hlive | hwait | hne
      · exact .inr (.inl hu)
      · exact absurd hq hlive
      · exact .inl hwait
      · exact absurd hk (hne s i)
    -- the contexts of the others have not changed
    have hold : (σ.pcb q).kctxt = .wait s i := by
      rcases hctx.kctxt q with he | ⟨hx, -⟩ | ⟨he, -⟩
      · rw [← he, hk]
      · exact absurd hx hactive
      · rw [hk] at he
        exact absurd he (by simp)
    rcases htree.live_or hq with hlive | rfl
    · rcases h.record q hlive s i hold with hwait | hu | ⟨d, hd, hdq⟩
      · exact (htree.wakes hinv hwait).imp_right .inr
      · exact absurd hu.1 hactive
      · exact .inr (.inr ⟨d, hdead.keeps hc hd (hdq ▸ hactive), hdq⟩)
    · rw [h.unborn _ le_rfl] at hold
      exact absurd hold (by simp)

/-! ## Runs -/

/-- A Wait from its start is made by a process with a live child, unless there is
no record that it could reap or its pointer is bad. -/
def FindsChild (σ : Kernel) (l : Label) : Prop :=
  l.call = some .wait → ∀ p ∈ σ.activeProc,
    (σ.waitPtr l).all (σ.badPointer p) = true ∨ (σ.family p).children ≠ [] ∨ σ.NoRecord

instance (σ : Kernel) (l : Label) : Decidable (σ.FindsChild l) :=
  inferInstanceAs (Decidable (l.call = some .wait → ∀ p ∈ σ.activeProc,
    (σ.waitPtr l).all (σ.badPointer p) = true ∨ (σ.family p).children ≠ [] ∨ σ.NoRecord))

/-- A Wait with a good pointer returns `ERROR` only where there is no live child
and no record; one that has blocked, which had a live child, does not. -/
def WaitsWell (m : Move Kernel Label) : Prop :=
  (∀ p s, m.label.call = some .wait → m.before.activeProc = some p →
    m.before.waitPtr m.label = some s → m.before.badPointer p s = false →
    m.before.outcome m.label = some (.ret error) →
      (∀ q ∈ m.before.live, (m.before.family q).ppid ≠ p) ∧
        ∀ d, some d ∈ m.before.deadList → d.ppid ≠ p) ∧
  (m.label.event = .resume → m.before.waitPtr m.label ≠ none →
    m.before.outcome m.label ≠ some (.ret error))

/-- The conditions on the steps of a run in which Wait fails only where it should. -/
def WaitCondition (σ : Kernel) (l : Label) (σ' : Kernel) : Prop :=
  σ.Allocates l σ' ∧ σ.IdlePauses l ∧ σ.CountsFromOne l ∧ σ.FindsChild l

instance (σ σ' : Kernel) (l : Label) : Decidable (WaitCondition σ l σ') :=
  inferInstanceAs (Decidable
    (σ.Allocates l σ' ∧ σ.IdlePauses l ∧ σ.CountsFromOne l ∧ σ.FindsChild l))

variable {b : Boot} {σ₀ : Kernel}

theorem expects_boot (hb : Booted σ₀) : σ₀.Expects where
  unborn q _ := hb.kctxt q
  record q _ s i hk := by
    rw [hb.kctxt q] at hk
    exact absurd hk (by simp)

theorem Placed.runsLive (h : σ.Placed) : σ.RunsLive := fun _ hp => h.live_of_active hp

theorem expects_of_run {tr : List (Move Kernel Label)} (hok : ∀ a ∈ b.procMallocs, a.ok = true)
    (h₀ : kernelStart b = some σ₀) (h : Run Kernel.step WaitCondition σ₀ tr σ) :
    (σ.Placed ∧ σ.Linked) ∧ σ.Expects ∧ ∃ ds, Ledger tr σ ds := by
  have hb := kernelStart_booted h₀
  have hplaced : ∀ {tr σ}, Run Kernel.step WaitCondition σ₀ tr σ → σ.Placed ∧ σ.Linked :=
    fun hr => linked_of_run hok h₀ (hr.mono fun _ _ _ _ hc => ⟨hc.1, hc.2.1⟩)
  refine ⟨hplaced h, ?_⟩
  induction h with
  | start => exact ⟨expects_boot hb, [], ledger_boot hb⟩
  | snoc hr hs hc ih =>
      obtain ⟨hexp, ds, hledger⟩ := ih
      have hinv := (hplaced hr).1
      have hsteps := step_cases hs
      exact ⟨hexp.step hinv hsteps hc.1 hc.2.1 hc.2.2.1,
        hledger.step hinv.runsLive hc.2.2.1 (dead_step hsteps)⟩

/-- The pid in a record is not the value of `ERROR`. -/
theorem Ledger.pid_ne_error {tr : List (Move Kernel Label)} {ds : List DeadInfo}
    (h : Ledger tr σ ds) {d : DeadInfo} (hd : some d ∈ σ.deadList) : d.pid ≠ error := by
  rw [h.records] at hd
  obtain ⟨d', hd', he⟩ := List.mem_map.1 hd
  obtain rfl := Option.some.inj he
  have hnn := (h.dead d'.pid (List.mem_append_left _ (List.mem_map_of_mem hd'))).1.1
  intro he
  rw [he] at hnn
  exact absurd hnn (by decide)

/-- A Wait from its start that fails has nothing to wait for. -/
theorem wait_call_error {tr : List (Move Kernel Label)} {ds : List DeadInfo}
    (hinv : σ.Placed) (hlinked : σ.Linked) (hledger : Ledger tr σ ds) (hsteps : Steps σ l σ')
    (hc : WaitCondition σ l σ') {p : Pid} {s : Word} (hcall : l.call = some .wait)
    (hp : σ.activeProc = some p) (hptr : σ.waitPtr l = some s)
    (hgood : σ.badPointer p s = false) (ho : σ.outcome l = some (.ret error)) :
    (∀ q ∈ σ.live, (σ.family q).ppid ≠ p) ∧ ∀ d, some d ∈ σ.deadList → d.ppid ≠ p := by
  obtain ⟨u, r, o, τ, hl, hv, hr, hs, -, hout⟩ := hsteps.of_call hcall
  obtain rfl : r = p := Option.some.inj (hr.symm.trans hp)
  obtain rfl : o = .ret error := Option.some.inj (hout.symm.trans ho)
  have hs₀ : u.regs 0 = s := by simpa [waitPtr, hp, hl, hcall] using hptr
  have hready : idle ∈ σ.readyQueue := hinv.idleReady.resolve_left fun hn =>
    hc.2.1.ne hl hp (by simp [hv]) (Option.some.inj (hp.symm.trans hn))
  have hcalling : ((σ.begin l).enter u).Calling r := ⟨hp, hready, hc.1.begin⟩
  rcases sysWait_cases hcalling hs with
    ⟨-, -, hbad | hnil⟩ | ⟨-, -, ⟨k, d, he, hreap⟩ | ⟨-, he, -⟩⟩
  · have hbad' : σ.badPointer r (u.regs 0) = true := hbad
    rw [hs₀, hgood] at hbad'
    exact absurd hbad' (by simp)
  · have hnil' : (σ.family r).children = [] := hnil
    constructor
    · intro q hq hqr
      have hmem := hlinked.child r (hinv.live_of_active hp) q hq hqr
      rw [hnil'] at hmem
      exact absurd hmem (by simp)
    · rcases hc.2.2.2 hcall r hp with hbad | hne | hnone
      · rw [hptr, Option.all_some, hgood] at hbad
        exact absurd hbad (by simp)
      · exact absurd hnil' hne
      · exact fun d hd => hnone _ hd d rfl r hp
  · have hpid : d.pid = error := (Outcome.ret.inj he).symm
    exact absurd hpid (hledger.pid_ne_error (List.mem_of_getElem? hreap.record.at_index))
  · exact absurd he (by simp)

/-- A Wait that continues finds its record. -/
theorem wait_resume_error {tr : List (Move Kernel Label)} {ds : List DeadInfo}
    (hinv : σ.Placed) (hexp : σ.Expects) (hledger : Ledger tr σ ds) (hsteps : Steps σ l σ')
    (hl : l.event = .resume) (hptr : σ.waitPtr l ≠ none) :
    σ.outcome l ≠ some (.ret error) := by
  intro ho
  obtain ⟨p, o, τ, hu, hp, hs, -, hout⟩ := hsteps.of_resume hl
  obtain rfl : o = .ret error := Option.some.inj (hout.symm.trans ho)
  have hwait : ∃ s i, (σ.pcb p).kctxt = .wait s i := by
    rw [waitPtr, hp, Option.bind_some, hl] at hptr
    dsimp only at hptr
    split at hptr
    · exact ⟨_, _, ‹_›⟩
    · exact absurd rfl hptr
  obtain ⟨s, i, hk⟩ := hwait
  rw [hk] at hs
  rcases sysWaitResume_cases hs with ⟨k, d, he, hreap⟩ | ⟨hnone, -, -⟩
  · have hpid : d.pid = error := (Outcome.ret.inj he).symm
    exact hledger.pid_ne_error (List.mem_of_getElem? hreap.record.at_index) hpid
  · rcases hexp.record p (hinv.live_of_active hp) s i hk with hw | hu' | ⟨d, hd, hdp⟩
    · exact (hinv.live_of_wait hw).2.1 hp
    · exact absurd (hu'.2.symm.trans hu) (by simp)
    · exact hnone d hd hdp

/-- In every run whose steps meet the condition, Wait fails only where there is
nothing to wait for. -/
theorem run_waits_well {tr : List (Move Kernel Label)}
    (hok : ∀ a ∈ b.procMallocs, a.ok = true) (h₀ : kernelStart b = some σ₀)
    (h : Run Kernel.step WaitCondition σ₀ tr σ) : ∀ m ∈ tr, WaitsWell m := by
  intro m hm
  obtain ⟨tr', hrun, hstep, hc⟩ := h.reaches_before hm
  obtain ⟨⟨hinv, hlinked⟩, hexp, ds, hledger⟩ := expects_of_run hok h₀ hrun
  have hsteps := step_cases hstep
  constructor
  · intro p s hcall hp hptr hgood ho
    exact wait_call_error hinv hlinked hledger hsteps hc hcall hp hptr hgood ho
  · intro hl hptr
    exact wait_resume_error hinv hexp hledger hsteps hl hptr

/-- The theorem on a run in which init waits for a child that exits later. -/
theorem run_waits_well_child : ∃ σ₀ tr σ, kernelStart smallBoot = some σ₀ ∧
    Run Kernel.step WaitCondition σ₀ tr σ ∧ tr.length = 5 ∧ ∀ m ∈ tr, WaitsWell m := by
  obtain ⟨σ₀, tr, σ, h₀, hr, hlen⟩ := bootExec_run (b := smallBoot) (C := WaitCondition)
    (t := [smallCall .fork 0 0 0, smallCall .wait vmem1Base 0 0, resumption,
      smallCall .exit 7 0 0, resumption])
    (by decide +kernel)
  exact ⟨σ₀, tr, σ, h₀, hr, hlen, run_waits_well (by decide) h₀ hr⟩

/-- Init calls Wait after its only child has exited, and gets `ERROR`. -/
theorem not_waitsWell : ∃ σ₀ tr σ, kernelStart smallBoot = some σ₀ ∧
    Run Kernel.step (fun σ l σ' => σ.Allocates l σ' ∧ σ.IdlePauses l ∧ σ.CountsFromOne l)
      σ₀ tr σ ∧ ∃ m ∈ tr, ¬WaitsWell m := by
  obtain ⟨σ₀, tr, σ, σ', h₀, -, hr, hp, hptr, hgood, ho, hd⟩ := bootExec_move (b := smallBoot)
    (C := fun σ l σ' => σ.Allocates l σ' ∧ σ.IdlePauses l ∧ σ.CountsFromOne l)
    (l := smallCall .wait vmem1Base 0 0)
    (P := fun σ _ => σ.activeProc = some 0 ∧
      σ.waitPtr (smallCall .wait vmem1Base 0 0) = some vmem1Base ∧
      σ.badPointer 0 vmem1Base = false ∧
      σ.outcome (smallCall .wait vmem1Base 0 0) = some (.ret error) ∧
      some ⟨0, 2, 7⟩ ∈ σ.deadList)
    (t := [smallCall .fork 0 0 0, clockTick, resumption, smallCall .exit 7 0 0, resumption])
    (by decide +kernel)
  have hcall : (smallCall .wait vmem1Base 0 0).call = some .wait := by decide
  refine ⟨σ₀, _, σ', h₀, hr, ⟨σ, smallCall .wait vmem1Base 0 0, σ'⟩, by simp, fun hwell => ?_⟩
  exact (hwell.1 0 vmem1Base hcall hp hptr hgood ho).2 _ hd rfl

end Kernel

end Yalnix
