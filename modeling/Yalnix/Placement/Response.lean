import Mathlib.Data.Int.Interval
import Yalnix.Placement.Fairness
import Yalnix.Tree.ProcessTable

/-!
# How long a Delay takes

A process that delays for `k` ticks is not active before the clock has ticked `k` times. With
the `k`-th tick it is in `ready_queue`, where there is no more than the table has room for,
and every further tick dispatches one of those before it.
-/

namespace Yalnix

open Transition

namespace Kernel

variable {σ σ' σ₀ τ : Kernel} {l : Label} {q : Pid} {k : ℕ} {tr tr' : List (Move Kernel Label)}
  {b : Boot}

/-! ## The length of `ready_queue` -/

theorem Placed.count_ready (h : σ.Placed) (q : Pid) :
    σ.readyQueue.count q ≤ σ.live.count q := by
  have hocc := h.occ_le q
  rw [occ, queued] at hocc
  omega

/-- No more processes are before a ready one than there are pids besides its own and idle's. -/
theorem Placed.ahead_le (h : σ.Placed) (hq : q ∈ σ.readyQueue) (hne : q ≠ idle) :
    (σ.ahead q : Int) + 2 ≤ σ.nextPid := by
  have hlive : ∀ p ∈ σ.readyQueue, p ∈ σ.live := by
    intro p hp
    have hcount := h.count_ready p
    have hpos := List.count_pos_iff.2 hp
    exact List.count_pos_iff.1 (by omega)
  have hidle : idle ∈ σ.live := by
    rcases h.idleReady with hact | hready
    · have hocc := h.occ_le idle
      rw [occ_eq_of_active hact, one_self] at hocc
      exact List.count_pos_iff.1 (by omega)
    · exact hlive idle hready
  have hnodup : (idle :: others σ.readyQueue).Nodup := by
    refine List.nodup_cons.2 ⟨fun hm => (mem_others.1 hm).2 rfl, ?_⟩
    refine List.Nodup.filter _ (List.nodup_iff_count_le_one.2 fun p => ?_)
    exact (h.count_ready p).trans (List.nodup_iff_count_le_one.1 h.nodup p)
  have hsub : (idle :: others σ.readyQueue).toFinset ⊆ Finset.Ico 0 σ.nextPid := by
    intro p hp
    rw [Finset.mem_Ico]
    rcases List.mem_cons.1 (List.mem_toFinset.1 hp) with rfl | hp
    · exact h.bound _ hidle
    · exact h.bound p (hlive p (mem_others.1 hp).1)
  have hcard := Finset.card_le_card hsub
  rw [List.toFinset_card_of_nodup hnodup, Int.card_Ico, List.length_cons] at hcard
  have hlt : σ.ahead q < (others σ.readyQueue).length :=
    List.idxOf_lt_length_of_mem (mem_others.2 ⟨hq, hne⟩)
  omega

theorem PidStep.mono (h : PidStep σ σ') : σ.nextPid ≤ σ'.nextPid := by
  cases h with
  | same hn => omega
  | fork hn => omega
  | exit p hn => omega

/-! ## Waking up -/

/-- A process that is ready is dispatched or stays ready. -/
theorem Flows.kept (h : Flows σ τ) (hq : q ∈ σ.readyQueue) (hne : q ≠ idle) :
    τ.activeProc = some q ∨ q ∈ τ.readyQueue := by
  obtain ⟨ps, ds, -, -, hlaw, hnext⟩ := h
  have hm : q ∈ others ds ++ others τ.readyQueue := by
    rw [← hlaw]
    exact List.mem_append_left _ (mem_others.2 ⟨hq, hne⟩)
  rcases List.mem_append.1 hm with hm | hm
  · rcases hnext with rfl | ⟨next, rfl, hact, -⟩
    · exact absurd hm List.not_mem_nil
    · left
      rw [hact, List.mem_singleton.1 (mem_others.1 hm).1]
  · exact .inr (mem_others.1 hm).1

/-- With its last tick a sleeping process is dispatched or made ready. -/
theorem clock_wakes (hinv : σ.Placed) (hs : Steps σ l σ') (ha : σ.Allocates l σ')
    (hv : l.vector = some 1) (hq : ⟨1, q⟩ ∈ σ.sleepList) (hne : q ≠ idle) :
    σ'.activeProc = some q ∨ q ∈ σ'.readyQueue := by
  obtain ⟨p, hp⟩ := Option.ne_none_iff_exists'.1 hinv.active
  obtain ⟨u, r, m, hr, rfl⟩ := hs.of_clock hv
  have hsleep := Requeues.updateSleepList (σ := (σ.begin l).enter u) ha.begin
  have hready : q ∈ ((σ.begin l).enter u).updateSleepList.readyQueue := by
    have hlist := tickSleepers_readyQueue σ.sleepList (σ := (σ.begin l).enter u) ha.begin
    rw [updateSleepList_eq]
    change q ∈ (tickSleepers σ.sleepList ((σ.begin l).enter u)).2.readyQueue
    rw [hlist]
    refine List.mem_append_right _ (List.mem_map.2 ⟨⟨1, q⟩, ?_, rfl⟩)
    exact List.mem_filter.2 ⟨hq, by simp⟩
  exact Flows.kept (Moves.doScheduler (hsleep.active.trans hp) hsleep.ok hr).flow hready hne

/-- Process `q` is in `sleep_list` with `n` ticks left. -/
def Sleeps (σ : Kernel) (q : Pid) (n : ℕ) : Prop := ⟨n, q⟩ ∈ σ.sleepList

/-- What a step does to a sleeping process: nothing, or it takes a tick off. -/
theorem sleeps_step {n : ℕ} (hs : Steps σ l σ') (ha : σ.Allocates l σ') (hq : σ.Sleeps q n)
    (hn : l.vector = some 1 → 1 < n) :
    σ'.Sleeps q (n - if l.vector = some 1 then 1 else 0) := by
  have hlist := step_sleepList hs ha
  unfold Sleeps at hq ⊢
  rw [hlist]
  split
  · rename_i hv
    have hmore := hn hv
    have hcast : ((n - 1 : ℕ) : Int) = (n : Int) - 1 := by omega
    rw [tick, hcast]
    refine List.mem_map.2 ⟨⟨n, q⟩, List.mem_filter.2 ⟨hq, ?_⟩, rfl⟩
    simpa using hmore
  · exact List.mem_append_left _ hq

theorem Placed.not_active_of_sleeps {n : ℕ} (h : σ.Placed) (hq : σ.Sleeps q n) :
    σ.activeProc ≠ some q := by
  intro hact
  have hpos : 0 < (σ.sleepList.map SleepInfo.pcb).count q :=
    List.count_pos_iff.2 (List.mem_map.2 ⟨_, hq, rfl⟩)
  have hocc := h.occ_le q
  have hone := List.nodup_iff_count_le_one.1 h.nodup q
  rw [occ_eq_of_active hact, one_self, queued, blocked] at hocc
  omega

/-! ## From Delay to the next turn -/

/-- How far process `q`, which has started a Delay of `k` ticks, is after the moves `tr`. -/
inductive Delayed (k : ℕ) (q : Pid) (tr : List (Move Kernel Label)) (τ : Kernel) : Prop
  | asleep (n : ℕ) (hpos : 0 < n) (hq : τ.Sleeps q n) (hleft : n + ticks tr = k)
  | ready (hq : q ∈ τ.readyQueue) (hover : k ≤ ticks tr)
      (hlate : (τ.ahead q : Int) + ticks tr + 2 ≤ k + τ.nextPid)
  | dispatched (hover : k ≤ ticks tr)
      (hturn : ∃ m ∈ tr, m.before.activeProc ≠ some q ∧ m.after.activeProc = some q)

theorem Delayed.step (h : Delayed k q tr σ) (hinv : σ.Placed) (hs : Steps σ l σ')
    (ha : σ.Allocates l σ') (hi : σ.IdlePauses l) (hne : q ≠ idle) :
    Delayed k q (tr ++ [⟨σ, l, σ'⟩]) σ' := by
  have hinv' := hinv.step hs ha hi
  have hlast : ∀ m : Move Kernel Label, m ∈ tr ++ [m] := fun m =>
    List.mem_append_right _ (List.mem_singleton_self m)
  have hcount := ticks_snoc tr σ l σ'
  cases h with
  | asleep n hpos hq hleft =>
      by_cases hwake : l.vector = some 1 ∧ n = 1
      · obtain ⟨hv, rfl⟩ := hwake
        rw [if_pos hv] at hcount
        rcases clock_wakes hinv hs ha hv hq hne with hact | hready
        · exact .dispatched (by omega)
            ⟨_, hlast _, hinv.not_active_of_sleeps hq, hact⟩
        · have hroom := hinv'.ahead_le hready hne
          exact .ready hready (by omega) (by omega)
      · have hmore : l.vector = some 1 → 1 < n := by
          intro hv
          have hn : n ≠ 1 := fun hn => hwake ⟨hv, hn⟩
          omega
        refine .asleep _ ?_ (sleeps_step hs ha hq hmore) ?_
        · split
          · rename_i hv
            have hn := hmore hv
            omega
          · exact hpos
        · rw [hcount]
          split
          · rename_i hv
            have hn := hmore hv
            omega
          · omega
  | ready hq hover hlate =>
      have hidle : σ.activeProc ≠ some q := fun hact => hinv.not_ready hact hq
      rcases ahead_step hinv hs ha hi hq hne with hact | ⟨hready, hmoved, hticked⟩
      · exact .dispatched (by omega) ⟨_, hlast _, hidle, hact⟩
      · have hmono := (step_settles hinv hs ha hi).pids.mono
        exact .ready hready (by omega) (by omega)
  | dispatched hover hturn =>
      obtain ⟨m, hm, hturn⟩ := hturn
      exact .dispatched (by omega) ⟨m, List.mem_append_left _ hm, hturn⟩

/-- A Delay puts the process that makes it into `sleep_list`, and that is not idle. -/
theorem delays_sleeps (hs : Steps σ l σ') (ha : σ.Allocates l σ') (hi : σ.IdlePauses l)
    (hd : σ.delays l = some (k, q)) : q ≠ idle ∧ 0 < k ∧ σ'.Sleeps q k := by
  obtain ⟨hpos, hv⟩ := delays_some hd
  refine ⟨?_, hpos, ?_⟩
  · rintro rfl
    unfold delays at hd
    split at hd
    · rename_i u p hl hp
      split at hd
      · rename_i hc
        obtain rfl : p = idle := (Prod.mk.inj (Option.some.inj hd)).2
        have hpauses := hi hp
        rw [Label.vector_of_call hc.1] at hpauses
        exact absurd hpauses (by decide)
      · exact absurd hd (by simp)
    · exact absurd hd (by simp)
  · have hlist := step_sleepList hs ha
    unfold Sleeps
    rw [hlist, if_neg hv, hd]
    exact List.mem_append_right _ (List.mem_singleton_self _)

/-- In every run in which allocations succeed and idle only pauses: a process that makes a
Delay of `k` ticks is not active again before the clock has ticked `k` times, and it has been
dispatched by the time that it has ticked `k - 1` times and once more for each pid that has
been handed out. There are at most `MAX_PROC` of these. -/
theorem run_delay_response (hok : ∀ a ∈ b.procMallocs, a.ok = true)
    (h₀ : kernelStart b = some σ₀)
    (h : Run step (fun σ l σ' => σ.Allocates l σ' ∧ σ.IdlePauses l) σ₀ tr σ)
    (hs : step σ l = some σ') (hc : σ.Allocates l σ' ∧ σ.IdlePauses l)
    (hd : σ.delays l = some (k, q))
    (h' : Run step (fun σ l σ' => σ.Allocates l σ' ∧ σ.IdlePauses l) σ' tr' τ) :
    (ticks tr' < k → τ.activeProc ≠ some q) ∧
      ((k : Int) + τ.nextPid ≤ ticks tr' + 1 →
        ∃ m ∈ tr', m.before.activeProc ≠ some q ∧ m.after.activeProc = some q) ∧
      τ.nextPid ≤ maxProc := by
  have hbefore := h.snoc hs hc
  obtain ⟨hne, hpos, hsleeps⟩ := delays_sleeps (step_cases hs) hc.1 hc.2 hd
  have hdelayed : Delayed k q tr' τ := by
    have hboth : Delayed k q tr' τ ∧ τ.Placed := by
      refine h'.history (I := fun tr τ => Delayed k q tr τ ∧ τ.Placed) ?_ ?_
      · exact ⟨.asleep k hpos hsleeps rfl, placed_of_run hok h₀ hbefore⟩
      · intro tr τ l τ' hind hs hc
        obtain ⟨hdelayed, hinv⟩ := hind
        exact ⟨hdelayed.step hinv (step_cases hs) hc.1 hc.2 hne,
          hinv.step (step_cases hs) hc.1 hc.2⟩
    exact hboth.1
  have hinv := placed_of_run hok h₀ (hbefore.trans h')
  have hnumbered := Numbered.of_run h₀ ((hbefore.trans h').restrict fun _ _ => trivial)
  refine ⟨fun hearly => ?_, fun hlate => ?_, hnumbered.last⟩
  · cases hdelayed with
    | asleep n hpos hq hleft => exact hinv.not_active_of_sleeps hq
    | ready hq hover hlate => omega
    | dispatched hover hturn => omega
  · cases hdelayed with
    | asleep n hpos hq hleft =>
        have hroom : 2 ≤ τ.nextPid := hnumbered.first
        omega
    | ready hq hover hsoon => omega
    | dispatched hover hturn => exact hturn

/-- The theorem on a run in which init delays for one tick, and two tickings follow. -/
theorem run_delay_response_init : ∃ σ₀ tr σ σ' tr' τ, kernelStart smallBoot = some σ₀ ∧
    Run step (fun σ l σ' => σ.Allocates l σ' ∧ σ.IdlePauses l) σ₀ tr σ ∧
    (step σ (smallCall .delay 1 0 0) = some σ' ∧ σ.delays (smallCall .delay 1 0 0) = some (1, 0)) ∧
    Run step (fun σ l σ' => σ.Allocates l σ' ∧ σ.IdlePauses l) σ' tr' τ ∧
    ((1 : ℕ) : Int) + τ.nextPid ≤ ticks tr' + 1 ∧
    (ticks tr' < 1 → τ.activeProc ≠ some 0) ∧
      (((1 : ℕ) : Int) + τ.nextPid ≤ ticks tr' + 1 →
        ∃ m ∈ tr', m.before.activeProc ≠ some 0 ∧ m.after.activeProc = some 0) ∧
      τ.nextPid ≤ maxProc := by
  obtain ⟨σ₀, tr, σ, σ', h₀, hr, hlast, hdelay, hend⟩ := bootExec_move (b := smallBoot)
    (C := fun σ l σ' => σ.Allocates l σ' ∧ σ.IdlePauses l) (l := smallCall .delay 1 0 0)
    (P := fun σ σ' => σ.delays (smallCall .delay 1 0 0) = some (1, 0) ∧
      (exec step (fun σ l σ' => σ.Allocates l σ' ∧ σ.IdlePauses l) σ'
        [resumption, clockTick, resumption, clockTick]).map Kernel.nextPid = some 2)
    (t := []) (by decide +kernel)
  obtain ⟨τ, hτ, hnext⟩ := Option.map_eq_some_iff.1 hend
  obtain ⟨tr', hr', hlabels⟩ := exec_run hτ
  have hticks : ticks tr' = 2 := by
    rw [ticks_labels, hlabels]
    rfl
  obtain ⟨-, hs, hc, -⟩ := hlast.last
  exact ⟨σ₀, tr, σ, σ', tr', τ, h₀, hr, ⟨hs, hdelay⟩, hr', by omega,
    run_delay_response (by simp [smallBoot]) h₀ hr hs hc hdelay hr'⟩

end Kernel

end Yalnix
