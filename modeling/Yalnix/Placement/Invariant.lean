import Yalnix.Placement.Call
import Yalnix.Placement.Lifecycle
import Yalnix.Runs

/-!
# Every process is in exactly one place

`Placed` is the invariant of runs in which allocations succeed: no process is in
two places and idle can always be scheduled. A Reclaim may lose a process, so
`Placed` bounds the places from above; without Reclaim the bound is attained.
-/

namespace Yalnix

open Transition

namespace Kernel

/-- No process is in two places, none that has exited is in one, and idle runs
or can be chosen to run. -/
structure Placed (σ : Kernel) : Prop where
  occ_le : ∀ q, σ.occ q ≤ σ.live.count q
  nodup : σ.live.Nodup
  nextPid : 0 ≤ σ.nextPid
  bound : ∀ q ∈ σ.live, 0 ≤ q ∧ q < σ.nextPid
  active : σ.activeProc ≠ none
  idleReady : σ.IdleReady
  idleAt : (σ.pcb idle).kctxt = .kernelStart ∨ (σ.pcb idle).kctxt = .preempted
  fell : σ.fellThrough = 0

/-- Each process that has been created and has not exited is in one place. -/
def Exact (σ : Kernel) : Prop := ∀ q, σ.occ q = σ.live.count q

/-- The pids given out and taken back by one step. -/
inductive PidStep (σ σ' : Kernel) : Prop
  | same (hn : σ'.nextPid = σ.nextPid) (hl : σ'.live = σ.live)
  | fork (hn : σ'.nextPid = σ.nextPid + 1) (hl : σ'.live = σ.live ++ [σ.nextPid])
  | exit (p : Pid) (hn : σ'.nextPid = σ.nextPid) (hl : σ'.live = σ.live.erase p)

/-- What a step does to the places of processes; only a `lossy` one may take a
process out of all of them. -/
structure Settles (lossy : Prop) (σ σ' : Kernel) : Prop where
  occ_le : ∀ q, σ'.occ q + σ.live.count q ≤ σ.occ q + σ'.live.count q
  occ_eq : ¬lossy → ∀ q, σ'.occ q + σ.live.count q = σ.occ q + σ'.live.count q
  fell : σ'.fellThrough = σ.fellThrough
  idleReady : σ.IdleReady → σ'.IdleReady
  active : σ.activeProc ≠ none → σ'.activeProc ≠ none
  pids : PidStep σ σ'
  flow : Flows σ σ'

end Kernel

namespace Kernel.Settles

variable {lossy : Prop} {σ σ₁ σ' : Kernel} {p : Pid} {o : Outcome}

/-- A step that moves processes and neither makes nor ends one. -/
theorem of_moves (h : Moves σ σ') (hn : σ'.nextPid = σ.nextPid) (hl : σ'.live = σ.live) :
    Settles lossy σ σ' where
  occ_le q := by rw [h.occ, hl]
  occ_eq _ q := by rw [h.occ, hl]
  fell := h.fell
  idleReady := h.idleReady
  active := mt h.active
  pids := .same hn hl
  flow := h.flow

/-- What comes before and after a call and touches neither queues nor pids. -/
theorem around {vs ws : List View} {τ : Kernel} (hb : Touches vs σ σ₁) (h : Settles lossy σ₁ τ)
    (ha : Touches ws τ σ') (hvs : View.queues ∉ vs ∧ View.pids ∉ vs)
    (hws : View.queues ∉ ws ∧ View.pids ∉ ws) : Settles lossy σ σ' := by
  have hm := Moves.of_touches hb hvs.1
  have hm' := Moves.of_touches ha hws.1
  obtain ⟨hn, hl⟩ := hb.same .pids hvs.2
  obtain ⟨hn', hl'⟩ := ha.same .pids hws.2
  exact {
    occ_le := fun q => by
      have hq := h.occ_le q
      rw [hm.occ, hl] at hq
      rw [hm'.occ, hl']
      exact hq
    occ_eq := fun hx q => by
      have hq := h.occ_eq hx q
      rw [hm.occ, hl] at hq
      rw [hm'.occ, hl']
      exact hq
    fell := hm'.fell.trans (h.fell.trans hm.fell)
    idleReady := fun hi => hm'.idleReady (h.idleReady (hm.idleReady hi))
    active := fun hn => mt hm'.active (h.active (mt hm.active hn))
    pids := by
      cases h.pids with
      | same h₁ h₂ => exact .same (hn'.trans (h₁.trans hn)) (hl'.trans (h₂.trans hl))
      | fork h₁ h₂ =>
          exact .fork (by rw [hn', h₁, hn]) (by rw [hl', h₂, hl, hn])
      | exit p h₁ h₂ =>
          exact .exit p (hn'.trans (h₁.trans hn)) (by rw [hl', h₂, hl])
    flow := .after (.of_touches hb hvs.1) (h.flow.seq ha hws.1) }

theorem fork (h : Forks σ σ' p) : Settles lossy σ σ' := by
  have hocc : ∀ q, σ'.occ q + σ.live.count q = σ.occ q + σ'.live.count q := by
    intro q
    rw [occ, occ, h.queues.active, h.queues.queued, h.live, List.count_append, count_one]
    omega
  exact {
    occ_le := fun q => (hocc q).le
    occ_eq := fun _ => hocc
    fell := h.queues.fell
    idleReady := by
      unfold IdleReady
      rw [h.queues.active]
      exact Or.imp_right (h.queues.ready ·)
    active := by
      rw [h.queues.active]
      exact id
    pids := .fork h.nextPid h.live
    flow := .of_feeds h.queues.flow }

/-- The active process `p` leaves for good. -/
theorem exit (hinv : σ.Placed) (ha : σ.activeProc = some p) (hi : idle ∈ σ.readyQueue)
    {τ : Kernel} {status : Word} (he : Exits σ τ p status)
    (h : τ.block .kernelStart (fun σ => some (.ret 0, σ)) = some (o, σ')) :
    Settles lossy σ σ' := by
  have htree := block_touches (v := [.queues, .contexts, .users]) (by simp)
    (fun _ _ _ _ h => .ret (.refl _ _) h) h
  obtain ⟨hn, hl⟩ := htree.same .pids (by simp)
  have hmem : p ∈ σ.live := by
    have hle := hinv.occ_le p
    rw [occ_eq_of_active ha, one_self] at hle
    exact List.count_pos_iff.1 (by omega)
  unfold block at h
  obtain ⟨r, hr, h⟩ := Option.bind_eq_some_iff.1 h
  obtain ⟨hs, hflow, next, hactive, hfell, hqueued, hidle⟩ :=
    normalSchedule_ok he.ok (he.flow.subset hi) hr
  rw [hs] at h
  obtain ⟨-, rfl⟩ := Prod.mk.inj (Option.some.inj h)
  have hocc : ∀ q, r.2.occ q + σ.live.count q = σ.occ q + r.2.live.count q := by
    intro q
    have hq := hqueued q
    have hc := count_erase_one hmem q
    rw [occ_eq_of_active hactive, occ_eq_of_active ha, hl, he.live]
    rw [he.queued] at hq
    omega
  exact {
    occ_le := fun q => (hocc q).le
    occ_eq := fun _ => hocc
    fell := hfell.trans he.fell
    idleReady := fun _ => hidle.imp_left fun hn => hactive.trans (congrArg some hn)
    active := by simp [hactive]
    pids := .exit p (hn.trans he.nextPid) (hl.trans he.live)
    flow := .after he.flow hflow }

/-- A Reclaim may lose processes. -/
theorem reclaim (hx : lossy) (h : Drops σ σ') (hn : σ'.nextPid = σ.nextPid)
    (hl : σ'.live = σ.live) : Settles lossy σ σ' where
  occ_le q := by
    have hq := h.queued q
    rw [occ, occ, h.active, hl]
    omega
  occ_eq h := absurd hx h
  fell := h.fell
  idleReady := by
    unfold IdleReady
    rw [h.active]
    exact Or.imp_right (h.flow.subset ·)
  active := by
    rw [h.active]
    exact id
  pids := .same hn hl
  flow := .of_feeds h.flow

end Kernel.Settles

namespace Kernel

variable {σ σ' : Kernel} {l : Label}

theorem Placed.live_of_active {p : Pid} (h : σ.Placed) (hp : σ.activeProc = some p) :
    p ∈ σ.live := by
  have hle := h.occ_le p
  rw [occ_eq_of_active hp, one_self] at hle
  exact List.count_pos_iff.1 (by omega)

theorem Placed.occ_le_one (h : σ.Placed) (q : Pid) : σ.occ q ≤ 1 :=
  (h.occ_le q).trans (List.nodup_iff_count_le_one.1 h.nodup q)

/-- A process that runs is not ready. -/
theorem Placed.not_ready (h : σ.Placed) {p : Pid} (hp : σ.activeProc = some p) :
    p ∉ σ.readyQueue := by
  intro hm
  have hle := h.occ_le_one p
  have hcount := List.count_pos_iff.2 hm
  rw [occ_eq_of_active hp, one_self, queued] at hle
  omega

/-- The processes of a waiting list are there once and neither run nor are ready. -/
theorem Placed.asleep (h : σ.Placed) {ps : List Pid} (hps : ∀ q, ps.count q ≤ σ.blocked q) :
    ps.Nodup ∧ ∀ q ∈ ps, σ.activeProc ≠ some q ∧ q ∉ σ.readyQueue := by
  have hle : ∀ q, (if σ.activeProc = some q then 1 else 0) + σ.readyQueue.count q +
      ps.count q ≤ 1 := fun q => by
    have h₁ := h.occ_le_one q
    have h₂ := hps q
    rw [occ, queued] at h₁
    omega
  refine ⟨List.nodup_iff_count_le_one.2 fun q => ?_, fun q hq => ⟨fun hact => ?_, fun hr => ?_⟩⟩
  · have h₁ := hle q
    omega
  · have h₁ := hle q
    have h₂ := List.count_pos_iff.2 hq
    rw [if_pos hact] at h₁
    omega
  · have h₁ := hle q
    have h₂ := List.count_pos_iff.2 hq
    have h₃ := List.count_pos_iff.2 hr
    omega

theorem pipe_blocked {a : ℕ} (ha : a ∈ σ.pipes.list) (q : Pid) :
    (σ.pipes.cell a).pipeWaitList.count q ≤ σ.blocked q := by
  have hsum := Table.le_sum ha fun x => x.pipeWaitList.count q
  simp only [blocked]
  omega

theorem lock_blocked {a : ℕ} (ha : a ∈ σ.locks.list) (q : Pid) :
    (σ.locks.cell a).lockWaitList.count q ≤ σ.blocked q := by
  have hsum := Table.le_sum ha fun x => x.lockWaitList.count q
  simp only [blocked]
  omega

theorem sem_blocked {a : ℕ} (ha : a ∈ σ.sems.list) (q : Pid) :
    (σ.sems.cell a).waiting.count q ≤ σ.blocked q := by
  have hsum := Table.le_sum ha fun x => x.waiting.count q
  simp only [blocked]
  omega

theorem io_blocked (q : Pid) : σ.ioList.count q ≤ σ.blocked q := by
  simp only [blocked]
  omega

/-- A process other than idle that runs can make a call. -/
theorem Placed.calling {p : Pid} {τ : Kernel} (hinv : σ.Placed)
    (ht : Touches [.frames, .registers] σ τ)
    (hok : τ.mem.AllOk) (hp : σ.activeProc = some p) (hne : p ≠ idle) : τ.Calling p := by
  obtain ⟨hactive, hready, -⟩ := ht.same .queues (by simp)
  refine ⟨hactive.trans hp, ?_, hok⟩
  rw [hready]
  exact hinv.idleReady.resolve_left fun hn => hne (Option.some.inj (hp.symm.trans hn))

/-- A process that continues a call is not idle. -/
theorem Placed.continuing {p : Pid} (hinv : σ.Placed) (ha : σ.Allocates l σ')
    (hp : σ.activeProc = some p)
    (hk : (σ.pcb p).kctxt ≠ .kernelStart ∧ (σ.pcb p).kctxt ≠ .preempted) :
    ((σ.begin l).restore p).Calling p := by
  refine hinv.calling (restore_touches σ l p) ha.begin hp ?_
  rintro rfl
  rcases hinv.idleAt with hat | hat
  · exact hk.1 hat
  · exact hk.2 hat

/-- What one step does to the places of processes. -/
theorem step_settles (hinv : σ.Placed) (h : Steps σ l σ') (ha : σ.Allocates l σ')
    (hi : σ.IdlePauses l) : Settles (l.call = some .reclaim) σ σ' := by
  have hexit : ∀ {u : UserContext} {p : Pid} {o : Outcome} {τ : Kernel} {status : Word},
      σ.activeProc = some p → p ≠ idle →
      ((σ.begin l).enter u).sysExit p status = some (o, τ) →
      Settles (l.call = some .reclaim) σ (finish (o, τ)) := by
    intro u p o τ status hp hne hs
    have hcall := hinv.calling (enter_touches σ l u) ha.begin hp hne
    obtain ⟨τ', he, hblock⟩ := sysExit_ok hcall.ok hs
    have hplaced : ((σ.begin l).enter u).Placed :=
      ⟨hinv.occ_le, hinv.nodup, hinv.nextPid, hinv.bound, hinv.active, hinv.idleReady,
        hinv.idleAt, hinv.fell⟩
    exact .around (enter_touches σ l u) (.exit hplaced hcall.active hcall.ready he hblock)
      (finish_touches o τ) (by simp) (by simp)
  cases h with
  | store hl hu h =>
      have ht := (begin_touches σ l).seq (copyOut_touches h)
      obtain ⟨hn, hlive⟩ := ht.same .pids (by simp)
      exact .of_moves (.of_touches ht (by simp)) hn hlive
  | @call u p c o τ hl hu hv hp hc h =>
      have hne : p ≠ idle := hi.ne hl hp (by simp [hv])
      have hcall := hinv.calling (enter_touches σ l u) ha.begin hp hne
      by_cases hf : c = .fork
      · subst hf
        obtain ⟨-, hforks⟩ := sysFork_ok hcall.ok h (by
          have hle := ha.2
          cases o <;> exact hle)
        exact .around (enter_touches σ l u) (.fork hforks) (finish_touches o τ) (by simp) (by simp)
      by_cases he : c = .exit
      · subst he
        exact hexit hp hne h
      obtain ⟨hn, hlive⟩ := sysCall_pids hf he h
      by_cases hr : c = .reclaim
      · subst hr
        have hx : l.call = some .reclaim := by simp [Label.call, hl, hv, hc]
        exact .around (enter_touches σ l u)
          (.reclaim hx (sysReclaim_drops hcall.ok h) hn hlive) (finish_touches o τ)
          (by simp) (by simp)
      · exact .around (enter_touches σ l u) (.of_moves (hcall.sysCall hf he hr h) hn hlive)
          (finish_touches o τ) (by simp) (by simp)
  | @clock u τ hl hu hv h =>
      obtain ⟨p, hp⟩ := Option.ne_none_iff_exists'.1 hinv.active
      have ht := trapClockHdl_touches h
      obtain ⟨hn, hlive⟩ := ht.same .pids (by simp)
      obtain ⟨⟨s, τ'⟩, hs, rfl⟩ := Option.map_eq_some_iff.1 h
      have hsleep := Requeues.updateSleepList (σ := (σ.begin l).enter u) ha.begin
      have hm := Moves.doScheduler (hsleep.active.trans hp) hsleep.ok hs
      have hτ : Moves ((σ.begin l).enter u) τ' :=
        ⟨fun q => (hm.occ q).trans ((Moves.of_requeues hsleep).occ q), hm.fell.trans hsleep.fell,
          fun hi => hm.idleReady ((Moves.of_requeues hsleep).idleReady hi),
          fun hn => (Moves.of_requeues hsleep).active (hm.active hn), .after hsleep.flow hm.flow⟩
      refine .around (enter_touches σ l u) (.of_moves ?_ hn hlive) (.refl [] _) (by simp) (by simp)
      cases s with
      | switched => exact hτ
      | returned =>
          exact ⟨hτ.occ, hτ.fell, hτ.idleReady, hτ.active,
            hτ.flow.seq (returnUser_touches τ') (by simp)⟩
  | abort hl hu hv hp h =>
      have hne := hi.ne hl hp (fun hm => hv (List.mem_cons_of_mem 0 hm))
      exact hexit hp hne h
  | @grow u p τ hl hu hv hp hfit h =>
      have ht := (enter_touches σ l u).seq
        ((growUserStack_touches h).seq (returnUser_touches τ))
      obtain ⟨hn, hlive⟩ := ht.same .pids (by simp)
      exact .of_moves (.of_touches ht (by simp)) hn hlive
  | @receive u τ hl hu hv h =>
      obtain ⟨hn, hlive⟩ := (trapTtyReceiveHdl_touches h).same .pids (by simp)
      exact .around (enter_touches σ l u)
        (.of_moves (.of_requeues (.trapTtyReceiveHdl ha.begin h)) hn hlive)
        (returnUser_touches τ) (by simp) (by simp)
  | @transmit u τ hl hu hv h =>
      obtain ⟨hn, hlive⟩ := (trapTtyTransmitHdl_touches h).same .pids (by simp)
      exact .around (enter_touches σ l u)
        (.of_moves (.of_requeues (.trapTtyTransmitHdl ha.begin h)) hn hlive)
        (returnUser_touches τ) (by simp) (by simp)
  | @disk u hl hu hv =>
      have ht := (enter_touches σ l u).trans
        ((returnUser_touches ((σ.begin l).enter u)).mono (List.nil_subset _))
      obtain ⟨hn, hlive⟩ := ht.same .pids (by simp)
      exact .of_moves (.of_touches ht (by simp)) hn hlive
  | @resume p o τ hl hu hp h =>
      have hviews : View.pids ∉ resumeViews (σ.pcb p).kctxt := by
        cases (σ.pcb p).kctxt <;> simp [resumeViews]
      obtain ⟨hn, hlive⟩ := (resumeCall_touches h).same .pids hviews
      by_cases hne : p = idle
      · -- idle has only ever been at the start or preempted
        subst hne
        have ht : Touches [.registers] ((σ.begin l).restore idle) τ := by
          rcases hinv.idleAt with hk | hk
          · rw [hk] at h
            exact .ret (startUser_touches _ _) h
          · rw [hk] at h
            exact .ret ((returnUser_touches _).mono (List.nil_subset _)) h
        exact .around (restore_touches σ l idle) (.of_moves (.of_touches ht (by simp)) hn hlive)
          (finish_touches o τ) (by simp) (by simp)
      · have hcall := hinv.calling (restore_touches σ l p) ha.begin hp hne
        exact .around (restore_touches σ l p) (.of_moves (hcall.resumeCall h) hn hlive)
          (finish_touches o τ) (by simp) (by simp)

/-- The invariant is kept by a step in which allocations succeed. -/
theorem Placed.step (hinv : σ.Placed) (h : Steps σ l σ') (ha : σ.Allocates l σ')
    (hi : σ.IdlePauses l) : σ'.Placed := by
  have hs := step_settles hinv h ha hi
  have hocc : ∀ q, σ'.occ q ≤ σ'.live.count q := fun q => by
    have h₁ := hs.occ_le q
    have h₂ := hinv.occ_le q
    omega
  have hpids : σ'.live.Nodup ∧ 0 ≤ σ'.nextPid ∧ ∀ q ∈ σ'.live, 0 ≤ q ∧ q < σ'.nextPid := by
    cases hs.pids with
    | same hn hl =>
        rw [hl, hn]
        exact ⟨hinv.nodup, hinv.nextPid, hinv.bound⟩
    | fork hn hl =>
        rw [hl, hn]
        have hnew : σ.nextPid ∉ σ.live := fun hm => lt_irrefl _ (hinv.bound _ hm).2
        have hnext := hinv.nextPid
        refine ⟨?_, by omega, fun q hq => ?_⟩
        · rw [← List.concat_eq_append]
          exact hinv.nodup.concat hnew
        · rcases List.mem_append.1 hq with hq | hq
          · have hb := hinv.bound q hq
            exact ⟨hb.1, hb.2.trans (Int.lt_succ σ.nextPid)⟩
          · obtain rfl := List.mem_singleton.1 hq
            exact ⟨hnext, Int.lt_succ σ.nextPid⟩
    | exit p hn hl =>
        rw [hl, hn]
        exact ⟨hinv.nodup.erase p, hinv.nextPid,
          fun q hq => hinv.bound q (List.mem_of_mem_erase hq)⟩
  refine ⟨hocc, hpids.1, hpids.2.1, hpids.2.2, hs.active hinv.active,
    hs.idleReady hinv.idleReady, ?_, hs.fell.trans hinv.fell⟩
  rcases (step_suspends h).kctxt idle with hk | ⟨hactive, hplaces⟩ | ⟨hk, -⟩
  · rw [hk]
    exact hinv.idleAt
  · have hv := hi hactive
    rcases hplaces with ⟨c, hc, -⟩ | ⟨-, hk⟩ | ⟨-, p, hp, hk⟩
    · simp [Label.vector_of_call hc] at hv
    · exact .inr hk
    · obtain rfl : idle = p := Option.some.inj (hactive.symm.trans hp)
      rcases hinv.idleAt with hk' | hk' <;> simp [hk', resumePlaces] at hk
  · exact .inl hk

/-- No process is lost by a step that makes no Reclaim. -/
theorem Exact.step (hexact : σ.Exact) (hinv : σ.Placed) (h : Steps σ l σ')
    (ha : σ.Allocates l σ') (hi : σ.IdlePauses l) (hr : l.call ≠ some .reclaim) : σ'.Exact := by
  intro q
  have h₁ := (step_settles hinv h ha hi).occ_eq hr q
  have h₂ := hexact q
  omega

variable {b : Boot} {σ₀ : Kernel}

theorem occ_boot (hb : Booted σ₀) (hr : σ₀.readyQueue = [idle]) : σ₀.Exact := by
  intro q
  rw [occ_eq_of_active hb.active, hb.queued, hr, hb.live, count_cons_one _ _ [idle], add_comm]

theorem placed_boot (hb : Booted σ₀) (hr : σ₀.readyQueue = [idle]) : σ₀.Placed where
  occ_le q := (occ_boot hb hr q).le
  nodup := by
    rw [hb.live]
    decide
  nextPid := by
    rw [hb.nextPid]
    decide
  bound := by
    rw [hb.live, hb.nextPid]
    decide
  active := by simp [hb.active]
  idleReady := .inr (by simp [hr])
  idleAt := .inl (hb.kctxt idle)
  fell := hb.fell

/-- In every run in which allocations succeed and idle only pauses, no process is
in two places. -/
theorem placed_of_run {tr : List (Move Kernel Label)} (hok : ∀ a ∈ b.procMallocs, a.ok = true)
    (h₀ : kernelStart b = some σ₀)
    (h : Run step (fun σ l σ' => σ.Allocates l σ' ∧ σ.IdlePauses l) σ₀ tr σ) : σ.Placed := by
  refine h.invariant (placed_boot (kernelStart_booted h₀) (kernelStart_ready hok h₀)) ?_
  exact fun σ l σ' hinv hs hc => hinv.step (step_cases hs) hc.1 hc.2

/-- In every run from the boot in which allocations succeed, idle only pauses and
no object is reclaimed, a process that has been created and has not exited is in
exactly one place and an exited one in none; a process other than idle always
finds idle in `ready_queue`, so `normal_schedule` never finds it empty. -/
theorem run_one_place {tr : List (Move Kernel Label)} (hok : ∀ a ∈ b.procMallocs, a.ok = true)
    (h₀ : kernelStart b = some σ₀)
    (h : Run step (fun σ l σ' => σ.Allocates l σ' ∧ σ.IdlePauses l ∧ l.call ≠ some .reclaim)
      σ₀ tr σ) :
    (∀ q, σ.occ q = if q ∈ σ.live then 1 else 0) ∧
      (∀ p, σ.activeProc = some p → p ≠ idle → idle ∈ σ.readyQueue) ∧ σ.fellThrough = 0 := by
  have hready := kernelStart_ready hok h₀
  have hboot := kernelStart_booted h₀
  obtain ⟨hplaced, hexact⟩ := h.invariant (I := fun σ => σ.Placed ∧ σ.Exact)
    ⟨placed_boot hboot hready, occ_boot hboot hready⟩
    fun σ l σ' ⟨hinv, hexact⟩ hs ⟨ha, hi, hr⟩ =>
      ⟨hinv.step (step_cases hs) ha hi, hexact.step hinv (step_cases hs) ha hi hr⟩
  refine ⟨fun q => ?_, fun p hp hne => ?_, hplaced.fell⟩
  · rw [hexact q]
    split
    · exact List.count_eq_one_of_mem hplaced.nodup ‹_›
    · exact List.count_eq_zero_of_not_mem ‹_›
  · exact hplaced.idleReady.resolve_left fun hn => hne (Option.some.inj (hp.symm.trans hn))

/-- The theorem on a run in which init creates a child and waits for it. -/
theorem run_one_place_fork : ∃ σ₀ tr σ, kernelStart smallBoot = some σ₀ ∧
    Run step (fun σ l σ' => σ.Allocates l σ' ∧ σ.IdlePauses l ∧ l.call ≠ some .reclaim) σ₀ tr σ ∧
    tr.length = 3 ∧ (∀ q, σ.occ q = if q ∈ σ.live then 1 else 0) := by
  obtain ⟨σ₀, tr, σ, h₀, hr, hlen⟩ := bootExec_run (b := smallBoot)
    (C := fun σ l σ' => σ.Allocates l σ' ∧ σ.IdlePauses l ∧ l.call ≠ some .reclaim)
    (t := [smallCall .fork 0 0 0, smallCall .wait vmem1Base 0 0, ⟨.resume, [], {}⟩])
    (by decide +kernel)
  exact ⟨σ₀, tr, σ, h₀, hr, hlen, (run_one_place (by decide) h₀ hr).1⟩

end Kernel

end Yalnix
