import Yalnix.Placement.Delay

/-!
# Every ready process gets its turn

A process in `ready_queue` moves up by one place with every other process that is
dispatched, apart from idle, and it is never overtaken. A clock trap always dispatches one
while a process other than idle is ready, so a process with `n` others before it runs after
`n + 1` clock traps at the latest, whatever else happens.
-/

namespace Yalnix

open Transition

namespace Kernel

variable {σ σ' σ₀ τ : Kernel} {l : Label} {p q : Pid} {tr tr' : List (Move Kernel Label)}
  {b : Boot}

/-- How many processes other than idle are in `ready_queue` before `q`. -/
def ahead (σ : Kernel) (q : Pid) : ℕ := (others σ.readyQueue).idxOf q

/-- How often processes other than idle have been dispatched. -/
def turns (σ : Kernel) : ℕ := (others σ.dispatched).length

/-! ## The clock -/

theorem doScheduler_dispatches {r : Sched × Kernel} (hp : σ.activeProc = some p)
    (hok : σ.mem.AllOk) (hne : σ.readyQueue ≠ []) (h : σ.doScheduler = some r) :
    ∃ next, r.2.dispatched = σ.dispatched ++ [next] := by
  unfold doScheduler at h
  rw [if_pos (List.length_pos_of_ne_nil hne), hp] at h
  have hq := Requeues.readyInsert hok p
  have hmem : (σ.readyInsert p).2.readyQueue ≠ [] := by
    rw [readyInsert_ok hok]
    simp
  obtain ⟨next, hnext, hpicks⟩ := nextReady_ok hq.ok hmem
  dsimp only [Option.getD_some] at h
  generalize ((σ.readyInsert p).2).nextReady = n at h hnext hpicks
  obtain ⟨n₁, τ⟩ := n
  obtain rfl : n₁ = some next := hnext
  obtain ⟨τ', hτ, rfl⟩ := Option.map_eq_some_iff.1 h
  obtain ⟨-, -, -, -, hdispatched, -⟩ := contextSwitch_queues hτ
  refine ⟨next, hdispatched.trans ?_⟩
  rw [hpicks.dispatched, readyInsert_ok hok]

/-- A clock trap is a call of `update_sleep_list` and one of `do_scheduler`. -/
theorem Steps.of_clock (hs : Steps σ l σ') (hv : l.vector = some 1) : ∃ u r m,
    ((σ.begin l).enter u).updateSleepList.doScheduler = some r ∧
      σ' = { r.2 with userMode := m } := by
  cases hs with
  | @clock u τ hl hu hv' hrun =>
      obtain ⟨r, hr, hret⟩ := Option.map_eq_some_iff.1 hrun
      split at hret
      · exact ⟨u, r, r.2.userMode, hr, hret.symm⟩
      · exact ⟨u, r, true, hr, hret.symm⟩
  | store hl => simp [Label.vector, hl] at hv
  | call hl hu hv' => simp [Label.vector, hl, hv'] at hv
  | @abort u r o τ hl hu hv' hr hrun => simp_all [Label.vector]
  | grow hl hu hv' => simp [Label.vector, hl, hv'] at hv
  | receive hl hu hv' => simp [Label.vector, hl, hv'] at hv
  | transmit hl hu hv' => simp [Label.vector, hl, hv'] at hv
  | disk hl hu hv' => simp [Label.vector, hl, hv'] at hv
  | resume hl => simp [Label.vector, hl] at hv

/-- A clock trap dispatches a process if one is ready. -/
theorem clock_dispatches (hinv : σ.Placed) (hs : Steps σ l σ') (ha : σ.Allocates l σ')
    (hv : l.vector = some 1) (hne : σ.readyQueue ≠ []) : σ'.dispatched ≠ σ.dispatched := by
  obtain ⟨p, hp⟩ := Option.ne_none_iff_exists'.1 hinv.active
  obtain ⟨u, r, m, hr, rfl⟩ := hs.of_clock hv
  have hsleep := Requeues.updateSleepList (σ := (σ.begin l).enter u) ha.begin
  have hready : ((σ.begin l).enter u).updateSleepList.readyQueue ≠ [] := by
    obtain ⟨q, hq⟩ := List.exists_mem_of_ne_nil _ hne
    exact List.ne_nil_of_mem (hsleep.ready hq)
  obtain ⟨next, hnext⟩ := doScheduler_dispatches (hsleep.active.trans hp) hsleep.ok hready hr
  obtain ⟨-, -, -, hsame⟩ := hsleep.flow
  change r.2.dispatched ≠ _
  rw [hnext, hsame]
  simp [enter, begin]

/-! ## Moving up -/

/-- Process `q` has waited in `ready_queue` through the moves `tr` from `σ` to `τ`: it has
moved up with each process that was dispatched, and each clock trap has dispatched one. -/
structure Queued (σ : Kernel) (tr : List (Move Kernel Label)) (τ : Kernel) (q : Pid) : Prop where
  ready : q ∈ τ.readyQueue
  moved : τ.ahead q + τ.turns = σ.ahead q + σ.turns
  ticked : ticks tr + σ.turns ≤ τ.turns

/-- In a step a ready process is dispatched, or it moves up by as many places as there are
processes that are. -/
theorem ahead_step (hinv : σ.Placed) (hs : Steps σ l σ') (ha : σ.Allocates l σ')
    (hi : σ.IdlePauses l) (hq : q ∈ σ.readyQueue) (hne : q ≠ idle) :
    σ'.activeProc = some q ∨ q ∈ σ'.readyQueue ∧
      σ'.ahead q + σ'.turns = σ.ahead q + σ.turns ∧
        (if l.vector = some 1 then 1 else 0) + σ.turns ≤ σ'.turns := by
  have hinv' := hinv.step hs ha hi
  have hmem : q ∈ others σ.readyQueue := mem_others.2 ⟨hq, hne⟩
  have hclock := fun hv => clock_dispatches hinv hs ha hv (List.ne_nil_of_mem hq)
  obtain ⟨ps, ds, -, hdispatched, hlaw, hnext⟩ := (step_settles hinv hs ha hi).flow
  have hpos : (others ds ++ others σ'.readyQueue).idxOf q = σ.ahead q := by
    rw [← hlaw, List.idxOf_append_of_mem hmem]
    rfl
  have hstill : q ∈ others ds ++ others σ'.readyQueue := by
    rw [← hlaw]
    exact List.mem_append_left _ hmem
  unfold turns
  rw [hdispatched, others_append, List.length_append]
  rcases hnext with rfl | ⟨next, rfl, hact, hidle⟩
  · -- nobody has been dispatched, so it was no clock trap
    have hv : l.vector ≠ some 1 := fun hv => hclock hv (by rw [hdispatched, List.append_nil])
    refine .inr ⟨(mem_others.1 hstill).1, ?_, ?_⟩
    · rw [← hpos]
      rfl
    · rw [if_neg hv]
      omega
  · by_cases hnq : next = q
    · exact .inl (hnq ▸ hact)
    have hlater : q ∈ others σ'.readyQueue := by
      rcases List.mem_append.1 hstill with hm | hm
      · exact absurd (List.mem_singleton.1 (mem_others.1 hm).1).symm hnq
      · exact hm
    have hnidle : next ≠ idle := by
      rintro rfl
      rcases hidle rfl with hready | hnone
      · exact hinv'.not_ready hact hready
      · rw [hnone] at hlater
        exact absurd hlater (by simp)
    have hone : others [next] = [next] := by simp [others, hnidle]
    rw [hone, List.singleton_append, List.idxOf_cons_ne _ hnq] at hpos
    refine .inr ⟨(mem_others.1 hlater).1, ?_, ?_⟩
    · rw [hone, List.length_singleton, ← hpos]
      unfold ahead
      omega
    · rw [hone, List.length_singleton]
      split <;> omega

theorem ticks_labels (tr : List (Move Kernel Label)) :
    ticks tr = (tr.map Move.label).countP fun l => l.vector = some 1 := by
  rw [List.countP_map]
  rfl

/-- From any state of a run in which allocations succeed and idle only pauses: a process
other than idle in `ready_queue` is dispatched, or it has moved up by one place with each
other process that has been, of which there is one for each clock trap at least. So it is
dispatched before there have been more clock traps than there were processes before it. -/
theorem run_no_starvation (hok : ∀ a ∈ b.procMallocs, a.ok = true)
    (h₀ : kernelStart b = some σ₀)
    (h : Run step (fun σ l σ' => σ.Allocates l σ' ∧ σ.IdlePauses l) σ₀ tr σ)
    (hq : q ∈ σ.readyQueue) (hne : q ≠ idle)
    (h' : Run step (fun σ l σ' => σ.Allocates l σ' ∧ σ.IdlePauses l) σ tr' τ) :
    ((∃ m ∈ tr', m.before.activeProc ≠ some q ∧ m.after.activeProc = some q) ∨
        Queued σ tr' τ q) ∧
      (σ.ahead q < ticks tr' →
        ∃ m ∈ tr', m.before.activeProc ≠ some q ∧ m.after.activeProc = some q) := by
  have hwaits : (∃ m ∈ tr', m.before.activeProc ≠ some q ∧ m.after.activeProc = some q) ∨
      Queued σ tr' τ q := by
    induction h' with
    | start => exact .inr ⟨hq, rfl, by simp [ticks]⟩
    | @snoc tr' τ τ' l hr hs hc ih =>
        rcases ih with ⟨m, hm, hturn⟩ | ⟨hready, hmoved, hticked⟩
        · exact .inl ⟨m, List.mem_append_left _ hm, hturn⟩
        have hinv := placed_of_run hok h₀ (h.trans hr)
        have hidle : τ.activeProc ≠ some q := fun hact => hinv.not_ready hact hready
        rcases ahead_step hinv (step_cases hs) hc.1 hc.2 hready hne with hact | ⟨hq', hm, ht⟩
        · exact .inl ⟨_, List.mem_append_right _ (List.mem_singleton_self _), hidle, hact⟩
        · refine .inr ⟨hq', hm.trans hmoved, ?_⟩
          rw [ticks_snoc]
          omega
  refine ⟨hwaits, fun hticks => hwaits.resolve_right fun hqueued => ?_⟩
  have hmoved := hqueued.moved
  have hticked := hqueued.ticked
  omega

/-- The theorem on a run in which init, its child and its second child take turns. -/
theorem run_no_starvation_children : ∃ σ₀ tr σ tr' τ, kernelStart smallBoot = some σ₀ ∧
    Run step (fun σ l σ' => σ.Allocates l σ' ∧ σ.IdlePauses l) σ₀ tr σ ∧
    Run step (fun σ l σ' => σ.Allocates l σ' ∧ σ.IdlePauses l) σ tr' τ ∧
    (3 ∈ σ.readyQueue ∧ σ.ahead 3 < ticks tr') ∧
    ((∃ m ∈ tr', m.before.activeProc ≠ some 3 ∧ m.after.activeProc = some 3) ∨
        Queued σ tr' τ 3) ∧
      (σ.ahead 3 < ticks tr' →
        ∃ m ∈ tr', m.before.activeProc ≠ some 3 ∧ m.after.activeProc = some 3) := by
  obtain ⟨σ₀, tr, σ, h₀, hr, hready, hahead, hsome⟩ := bootExec_state (b := smallBoot)
    (C := fun σ l σ' => σ.Allocates l σ' ∧ σ.IdlePauses l)
    (P := fun σ => 3 ∈ σ.readyQueue ∧ σ.ahead 3 = 1 ∧
      (exec step (fun σ l σ' => σ.Allocates l σ' ∧ σ.IdlePauses l) σ
        [clockTick, resumption, clockTick]).isSome = true)
    (t := [smallCall .fork 0 0 0, smallCall .fork 0 0 0])
    (by decide +kernel)
  obtain ⟨τ, hτ⟩ := Option.isSome_iff_exists.1 hsome
  obtain ⟨tr', hr', hlabels⟩ := exec_run hτ
  have hticks : ticks tr' = 2 := by
    rw [ticks_labels, hlabels]
    rfl
  exact ⟨σ₀, tr, σ, tr', τ, h₀, hr, hr', ⟨hready, by omega⟩,
    run_no_starvation (by simp [smallBoot]) h₀ hr hready (by decide) hr'⟩

end Kernel

end Yalnix
