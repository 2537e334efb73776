import Yalnix.Library.Alarm
import Yalnix.Placement.Invariant

/-!
# Delay

A Delay of `k` ticks sets an alarm for `k` ticks from now, and `sleep_list` holds the alarms
that are pending, in the order in which they were set: the loop of `update_sleep_list` takes
one off each, and makes those ready that have none left.
-/

namespace Yalnix

open Transition Alarm

namespace Kernel

/-- The Delay that the step makes: for how many ticks, and for which process. -/
def delays (σ : Kernel) (l : Label) : Option (ℕ × Pid) :=
  match l.event, σ.activeProc with
  | .trap u, some p =>
      if l.call = some .delay ∧ 0 < (u.regs 0).toInt then some ((u.regs 0).toInt.toNat, p)
      else none
  | _, _ => none

/-- How often `update_sleep_list` has been called: once for each interrupt of the clock. -/
def ticks (tr : List (Move Kernel Label)) : ℕ :=
  tr.countP fun m => m.label.vector = some 1

/-- The Delays of the moves `tr`, which start at time `now`: the tick with which each ends,
and its process. -/
def alarmsFrom : ℕ → List (Move Kernel Label) → List (ℕ × Pid)
  | _, [] => []
  | now, m :: tr =>
      ((m.before.delays m.label).map fun d => (now + d.1, d.2)).toList ++
        alarmsFrom (now + ticks [m]) tr

/-- The Delays of a run. -/
def alarms (tr : List (Move Kernel Label)) : List (ℕ × Pid) := alarmsFrom 0 tr

/-- The entry of `sleep_list` for a Delay with some ticks left. -/
def sleeper (a : ℕ × Pid) : SleepInfo := ⟨a.1, a.2⟩

/-- What a tick makes of the sleepers: it lowers `ticks_left` by one, and those that have none
left are gone. -/
def tick (ss : List SleepInfo) : List SleepInfo :=
  (ss.filter fun s => 1 < s.ticksLeft).map fun s => { s with ticksLeft := s.ticksLeft - 1 }

/-- Delay is exact in the state that a run has come to. -/
structure DelayExact (tr : List (Move Kernel Label)) (σ : Kernel) : Prop where
  /-- Whoever has not had all its ticks sleeps, and nobody else. -/
  asleep : σ.sleepList = (pending (ticks tr) (alarms tr)).map sleeper
  /-- Nobody is made ready before. -/
  notReady : ∀ s ∈ σ.sleepList, s.pcb ∉ σ.readyQueue ∧ σ.activeProc ≠ some s.pcb
  /-- The next tick makes exactly those ready whose last tick it is, in the order in which
  they went to sleep, and takes one off all others. -/
  woken : ∀ l u, l.event = .trap u → (∀ a ∈ l.mallocs, a.ok = true) →
    ((σ.begin l).enter u).updateSleepList.readyQueue =
        σ.readyQueue ++ due (ticks tr + 1) (alarms tr) ∧
      ((σ.begin l).enter u).updateSleepList.sleepList = tick σ.sleepList

variable {σ σ' : Kernel} {l : Label} {p : Pid} {o : Outcome} {tr : List (Move Kernel Label)}

/-! ## The loop of `update_sleep_list` -/

theorem tickSleepers_tick (ss : List SleepInfo) (σ : Kernel) :
    (tickSleepers ss σ).1 = tick ss := by
  induction ss generalizing σ with
  | nil => rfl
  | cons s ss ih =>
      unfold tickSleepers tick
      dsimp only
      split
      · rename_i hup
        have hlast : ¬1 < s.ticksLeft := by omega
        rw [List.filter_cons_of_neg (by simpa using hlast)]
        exact ih _
      · rename_i hleft
        have hmore : 1 < s.ticksLeft := by omega
        rw [List.filter_cons_of_pos (by simpa using hmore), List.map_cons]
        exact congrArg _ (ih σ)

theorem tickSleepers_readyQueue (ss : List SleepInfo) {σ : Kernel} (h : σ.mem.AllOk) :
    (tickSleepers ss σ).2.readyQueue =
      σ.readyQueue ++ (ss.filter fun s => s.ticksLeft ≤ 1).map SleepInfo.pcb := by
  induction ss generalizing σ with
  | nil => simp [tickSleepers]
  | cons s ss ih =>
      unfold tickSleepers
      dsimp only
      split
      · rename_i hup
        have hlast : s.ticksLeft ≤ 1 := by omega
        rw [List.filter_cons_of_pos (by simpa using hlast), List.map_cons]
        have hset : (σ.setPcb s.pcb { σ.pcb s.pcb with state := .ready }).mem.AllOk := h
        rw [readyInsert_ok hset, ih (by exact hset.malloc), List.append_assoc]
        rfl
      · rename_i hleft
        have hmore : ¬s.ticksLeft ≤ 1 := by omega
        rw [List.filter_cons_of_neg (by simpa using hmore)]
        exact ih h

theorem updateSleepList_sleepList (σ : Kernel) :
    σ.updateSleepList.sleepList = tick σ.sleepList := by
  rw [updateSleepList_eq]
  exact tickSleepers_tick _ σ

/-- On the entries of pending alarms the loop is a tick of the clock. -/
theorem tick_pending (now : ℕ) (set : List (ℕ × Pid)) :
    tick ((pending now set).map sleeper) = (pending (now + 1) set).map sleeper := by
  rw [pending_tick, tick, List.filter_map, List.map_map, List.map_map]
  have hone : (fun s : SleepInfo => decide (1 < s.ticksLeft)) ∘ sleeper =
      fun a : ℕ × Pid => decide (1 < a.1) := by
    funext a
    exact decide_eq_decide.2 (by simp only [sleeper]; omega)
  rw [hone]
  apply List.map_congr_left
  intro a ha
  have hlt : 1 < a.1 := by simpa using (List.mem_filter.1 ha).2
  have hsub : ((a.1 - 1 : ℕ) : Int) = (a.1 : Int) - 1 := by omega
  simp [sleeper, hsub]

theorem last_pending (now : ℕ) (set : List (ℕ × Pid)) :
    ((((pending now set).map sleeper).filter fun s => s.ticksLeft ≤ 1).map SleepInfo.pcb) =
      due (now + 1) set := by
  rw [due_tick, List.filter_map, List.map_map]
  have hone : (fun s : SleepInfo => decide (s.ticksLeft ≤ 1)) ∘ sleeper =
      fun a : ℕ × Pid => decide (a.1 ≤ 1) := by
    funext a
    exact decide_eq_decide.2 (by simp only [sleeper]; omega)
  rw [hone]
  rfl

/-! ## The steps -/

theorem sysDelay_sleepList (ha : σ.mem.AllOk) (h : σ.sysDelay p = some (o, σ')) :
    σ'.sleepList = σ.sleepList ++
      if 0 < (σ.reg 0).toInt then [⟨(σ.reg 0).toInt, p⟩] else [] := by
  unfold sysDelay at h
  dsimp only at h
  split at h
  · rename_i hneg
    obtain ⟨-, rfl⟩ := Prod.mk.inj (Option.some.inj h)
    rw [if_neg (by omega), List.append_nil]
  · split at h
    · rename_i hzero
      obtain ⟨-, rfl⟩ := Prod.mk.inj (Option.some.inj h)
      rw [if_neg (by omega), List.append_nil]
    · rename_i hneg hzero
      rw [if_pos (by omega)]
      have hsleep : (σ.insertSleepList p (σ.reg 0).toInt).2.sleepList =
          σ.sleepList ++ [⟨(σ.reg 0).toInt, p⟩] := by
        unfold insertSleepList
        dsimp only
        rw [if_pos (show σ.malloc.1.ok = true from ha.ok)]
        rw [listInsert_last_ok _ _ (show (σ.malloc.2.setPcb p _).mem.AllOk from ha.malloc)]
        rfl
      split at h
      · obtain ⟨-, rfl⟩ := Prod.mk.inj (Option.some.inj h)
        exact hsleep
      · have hblock : Touches [.queues, .contexts, .users] _ σ' :=
          block_touches (by simp) (fun _ _ _ _ h => .ret (.refl _ _) h) h
        exact Eq.trans (hblock.same .sleepers (by simp)) hsleep

/-- What a step does to the sleepers: a tick, or a Delay that joins them. -/
theorem step_sleepList (h : Steps σ l σ') (ha : σ.Allocates l σ') : σ'.sleepList =
    if l.vector = some 1 then tick σ.sleepList
    else σ.sleepList ++ ((σ.delays l).map sleeper).toList := by
  have hquiet : ∀ {vs : List View}, Touches vs σ σ' → View.sleepers ∉ vs → l.vector ≠ some 1 →
      σ.delays l = none → σ'.sleepList = if l.vector = some 1 then tick σ.sleepList
        else σ.sleepList ++ ((σ.delays l).map sleeper).toList := by
    intro vs ht hvs hv hd
    rw [if_neg hv, hd]
    exact Eq.trans (ht.same .sleepers hvs) (List.append_nil _).symm
  have hother : ∀ {v : Int}, l.vector = some v → v ≠ 0 → σ.delays l = none := by
    intro v hv hne
    unfold delays
    split
    · rw [if_neg]
      rintro ⟨hc, -⟩
      exact hne (Option.some.inj (hv.symm.trans (Label.vector_of_call hc)))
    · rfl
  have hvector : ∀ {u : UserContext}, l.event = .trap u → l.vector = some u.vector := by
    intro u hl
    simp [Label.vector, hl]
  have henter := enter_touches σ l
  cases h with
  | @store a b τ hl hu h =>
      exact hquiet ((begin_touches σ l).seq (copyOut_touches h)) (by simp)
        (by simp [Label.vector, hl]) (by simp [delays, hl])
  | @call u p c o τ hl hu hv hp hc h =>
      have hcall : l.call = some c := by simp [Label.call, hl, hv, hc]
      have hvec : l.vector ≠ some 1 := by simp [hvector hl, hv]
      by_cases hdelay : c = .delay
      · subst hdelay
        have hsleep := sysDelay_sleepList (σ := (σ.begin l).enter u) ha.begin h
        have hfin : (finish (o, τ)).sleepList = τ.sleepList :=
          (finish_touches o τ).same .sleepers (by simp)
        rw [if_neg hvec, hfin, hsleep]
        have hd : σ.delays l =
            if 0 < (u.regs 0).toInt then some ((u.regs 0).toInt.toNat, p) else none := by
          simp [delays, hl, hp, hcall]
        rw [hd]
        change σ.sleepList ++ (if 0 < (u.regs 0).toInt then _ else _) = _
        split
        · rename_i hpos
          simp [sleeper, Int.toNat_of_nonneg hpos.le, reg, enter]
        · rfl
      · refine hquiet (call_touches (henter u) (sysCall_touches h) o) ?_ hvec ?_
        · cases c <;> simp [callViews] at hdelay ⊢
        · simp [delays, hl, hp, hcall, hdelay]
  | @clock u τ hl hu hv h =>
      rw [if_pos (by rw [hvector hl, hv])]
      obtain ⟨⟨s, τ'⟩, hs, rfl⟩ := Option.map_eq_some_iff.1 h
      have htick : τ'.sleepList = tick σ.sleepList :=
        Eq.trans ((doScheduler_touches hs).same .sleepers (by simp))
          (updateSleepList_sleepList ((σ.begin l).enter u))
      cases s with
      | switched => exact htick
      | returned => exact htick
  | @abort u p o τ hl hu hv hp h =>
      simp only [List.mem_cons, List.not_mem_nil, or_false, not_or] at hv
      refine hquiet ((henter u).seq ((sysExit_touches h).seq (finish_touches o τ))) (by simp) ?_
        (hother (hvector hl) hv.1)
      rw [hvector hl]
      exact fun he => hv.2.1 (Option.some.inj he)
  | @grow u p τ hl hu hv hp hfit h =>
      exact hquiet ((henter u).seq ((growUserStack_touches h).seq (returnUser_touches τ)))
        (by simp) (by simp [hvector hl, hv]) (hother (hvector hl) (by simp [hv]))
  | @receive u τ hl hu hv h =>
      exact hquiet ((henter u).seq ((trapTtyReceiveHdl_touches h).seq (returnUser_touches τ)))
        (by simp) (by simp [hvector hl, hv]) (hother (hvector hl) (by simp [hv]))
  | @transmit u τ hl hu hv h =>
      exact hquiet ((henter u).seq ((trapTtyTransmitHdl_touches h).seq (returnUser_touches τ)))
        (by simp) (by simp [hvector hl, hv]) (hother (hvector hl) (by simp [hv]))
  | @disk u hl hu hv =>
      exact hquiet ((henter u).seq (returnUser_touches _)) (by simp) (by simp [hvector hl, hv])
        (hother (hvector hl) (by simp [hv]))
  | @resume p o τ hl hu hp h =>
      refine hquiet ((restore_touches σ l p).seq ((resumeCall_touches h).seq (finish_touches o τ)))
        ?_ (by simp [Label.vector, hl]) (by simp [delays, hl])
      cases (σ.pcb p).kctxt <;> simp [resumeViews]

/-! ## Runs -/

theorem alarmsFrom_append (now : ℕ) (tr tr' : List (Move Kernel Label)) :
    alarmsFrom now (tr ++ tr') = alarmsFrom now tr ++ alarmsFrom (now + ticks tr) tr' := by
  induction tr generalizing now with
  | nil => rfl
  | cons m tr ih =>
      have hticks : ticks (m :: tr) = ticks [m] + ticks tr := by
        rw [ticks, ← List.singleton_append, List.countP_append]
        rfl
      rw [List.cons_append, alarmsFrom, alarmsFrom, ih, hticks, List.append_assoc, Nat.add_assoc]

theorem alarms_snoc (tr : List (Move Kernel Label)) (σ : Kernel) (l : Label) (σ' : Kernel) :
    alarms (tr ++ [⟨σ, l, σ'⟩]) =
      alarms tr ++ ((σ.delays l).map fun d => (ticks tr + d.1, d.2)).toList := by
  rw [alarms, alarmsFrom_append, Nat.zero_add]
  simp [alarms, alarmsFrom]

theorem ticks_snoc (tr : List (Move Kernel Label)) (σ : Kernel) (l : Label) (σ' : Kernel) :
    ticks (tr ++ [⟨σ, l, σ'⟩]) = ticks tr + if l.vector = some 1 then 1 else 0 := by
  rw [ticks, List.countP_append]
  simp [ticks, List.countP_cons]

/-- A Delay is for at least one tick and is not an interrupt of the clock. -/
theorem delays_some {d : ℕ × Pid} (h : σ.delays l = some d) :
    0 < d.1 ∧ l.vector ≠ some 1 := by
  unfold delays at h
  split at h
  · split at h
    · rename_i hc
      obtain rfl := Option.some.inj h
      refine ⟨by omega, ?_⟩
      rw [Label.vector_of_call hc.1]
      simp
    · exact absurd h (by simp)
  · exact absurd h (by simp)

/-- One step takes the pending alarms with it. -/
theorem Asleep.step (h : σ.sleepList = (pending (ticks tr) (alarms tr)).map sleeper)
    (hs : Steps σ l σ') (ha : σ.Allocates l σ') : σ'.sleepList =
      (pending (ticks (tr ++ [⟨σ, l, σ'⟩])) (alarms (tr ++ [⟨σ, l, σ'⟩]))).map sleeper := by
  rw [step_sleepList hs ha, ticks_snoc, alarms_snoc, h]
  cases hd : σ.delays l with
  | none =>
      rw [Option.map_none, Option.map_none, Option.toList_none, Option.toList_none,
        List.append_nil, List.append_nil]
      split
      · exact tick_pending _ _
      · rfl
  | some d =>
      obtain ⟨hpos, hv⟩ := delays_some hd
      rw [if_neg hv, if_neg hv, Nat.add_zero, Option.map_some, Option.map_some,
        Option.toList_some, Option.toList_some, pending_set hpos, List.map_append]
      rfl

variable {b : Boot} {σ₀ : Kernel}

theorem sleepList_boot (h : Booted σ) : σ.sleepList = [] := by
  refine (List.map_eq_nil_iff (f := SleepInfo.pcb)).1 (List.eq_nil_iff_forall_not_mem.2 ?_)
  intro q hq
  have hpos := List.count_pos_iff.2 hq
  have hcount := h.queued q
  rw [queued, blocked] at hcount
  omega

/-- In every run in which allocations succeed and idle only pauses, Delay is exact. -/
theorem run_delay_exact (hok : ∀ a ∈ b.procMallocs, a.ok = true)
    (h₀ : kernelStart b = some σ₀)
    (h : Run step (fun σ l σ' => σ.Allocates l σ' ∧ σ.IdlePauses l) σ₀ tr σ) :
    DelayExact tr σ := by
  have hasleep : σ.sleepList = (pending (ticks tr) (alarms tr)).map sleeper := by
    refine h.history (I := fun tr σ => σ.sleepList =
      (pending (ticks tr) (alarms tr)).map sleeper) ?_ ?_
    · exact sleepList_boot (kernelStart_booted h₀)
    · intro tr σ l σ' hsleep hs hc
      exact Asleep.step hsleep (step_cases hs) hc.1
  refine ⟨hasleep, fun s hs => ?_, fun l u hl hm => ⟨?_, ?_⟩⟩
  · have hblocked : ∀ q, (σ.sleepList.map SleepInfo.pcb).count q ≤ σ.blocked q := by
      intro q
      rw [blocked]
      omega
    have hapart := ((placed_of_run hok h₀ h).asleep hblocked).2 s.pcb (List.mem_map_of_mem hs)
    exact ⟨hapart.2, hapart.1⟩
  · rw [updateSleepList_eq, ← last_pending, ← hasleep]
    exact tickSleepers_readyQueue _ (σ := (σ.begin l).enter u) hm
  · exact updateSleepList_sleepList ((σ.begin l).enter u)

/-- Init sleeps for two ticks and its child for three; after two ticks init has left the list
and runs, and the child is left with one. -/
theorem run_delay_exact_small : ∃ σ₀ tr σ, kernelStart smallBoot = some σ₀ ∧
    Run step (fun σ l σ' => σ.Allocates l σ' ∧ σ.IdlePauses l) σ₀ tr σ ∧
    σ.sleepList = [⟨1, 2⟩] ∧ σ.activeProc = some 0 ∧
    DelayExact tr σ := by
  obtain ⟨σ₀, tr, σ, h₀, hr, hsleep, hp⟩ := bootExec_state (b := smallBoot)
    (C := fun σ l σ' => σ.Allocates l σ' ∧ σ.IdlePauses l)
    (P := fun σ => σ.sleepList = [⟨1, 2⟩] ∧
      σ.activeProc = some 0)
    (t := [smallCall .fork 0 0 0, smallCall .delay 2 0 0, resumption, smallCall .delay 3 0 0,
      resumption, clockTick, clockTick])
    (by decide +kernel)
  exact ⟨σ₀, tr, σ, h₀, hr, hsleep, hp, run_delay_exact (by decide) h₀ hr⟩

end Kernel

end Yalnix
