import Yalnix.Placement.Context
import Yalnix.Sync.Holder

/-!
# Mutual exclusion

`Exclusive` says that the holders of locks, which are read off the moves of a run, are the
owners that the locks note. It is kept by every step as long as nothing is reclaimed: a
lock that is held is the first one with its id, so each Acquire, Release and CvarWait on the
id comes to this lock. That a lock has one holder and that nobody else can release it are
its consequences.
-/

namespace Yalnix

open Transition

namespace Kernel

variable {σ σ' σ₀ : Kernel} {l : Label} {p q : Pid} {o : Outcome} {a : ℕ} {x : Int}
  {tr : List (Move Kernel Label)} {b : Boot}

/-! ## Giving a lock up -/

/-- A CvarWait of the holder gives the lock up, whatever comes of it. -/
theorem sysCvarWait_unlocks (hcall : σ.Calling p) (h : σ.sysCvarWait p = some (o, σ'))
    (hfind : σ.locks.find? (fun l =>
      l.lockid = (σ.reg 1).toInt ∧ l.pid = p ∧ l.locked = true) ≠ none) :
    ∃ a τ, Unlocks σ τ p (σ.reg 1).toInt a ∧ σ'.locks = τ.locks := by
  rcases sysRelease_cases hcall.ok p (σ.reg 1).toInt with ⟨-, hnone⟩ | ⟨hzero, a, hun⟩
  · exact absurd hnone hfind
  refine ⟨a, _, hun, ?_⟩
  have hcall' := hcall.requeued (Requeues.sysRelease hcall.ok p (σ.reg 1).toInt)
  unfold sysCvarWait at h
  dsimp only at h
  rw [if_neg (not_not.2 hzero)] at h
  split at h
  · obtain ⟨-, rfl⟩ := Prod.mk.inj (Option.some.inj h)
    rfl
  · rename_i c hc
    have hins := Requeues.cvarWaitInsert hcall'.ok (Table.mem_of_find? hc) p
    obtain ⟨-, htouch, -⟩ := hcall'.sleeps hins h
    rw [show σ'.locks = _ from htouch.same .lockTable (by simp), cvarWaitInsert_ok hcall'.ok]

theorem Unlocks.free {τ : Kernel} (h : Unlocks σ τ p x a) : (τ.locks.cell a).locked = false := by
  have ha := Table.mem_of_find? h.find
  rcases h.wakes with ⟨-, hw⟩ | ⟨q, rest, -, -, hw⟩
  · rw [hw, Table.cell_write_self ha]
  · rw [hw, Table.cell_write_self ha]

/-- The lock that a process gives up is free after the step. -/
theorem Loses.free (h : Loses x p ⟨σ, l, σ'⟩) (hinv : σ.Placed) (hs : Steps σ l σ')
    (ha : σ.Allocates l σ') (hi : σ.IdlePauses l) :
    ∃ a, σ.locks.find? (fun l => l.lockid = x ∧ l.pid = p ∧ l.locked = true) = some a ∧
      (σ'.locks.cell a).locked = false := by
  obtain ⟨hp, hrel, hfind⟩ := h
  dsimp only at hp hrel hfind
  unfold releaseId at hrel
  split at hrel
  swap
  · exact absurd hrel (by simp)
  rename_i u hl
  have hcalling : u.vector = 0 → ((σ.begin l).enter u).Calling p := fun hv =>
    hinv.calling (enter_touches σ l u) ha.begin hp (hi.ne hl hp (by simp [hv]))
  split at hrel
  · rename_i hc
    obtain ⟨u', r, o, τ, hl', hv, hr, hcall, rfl, -⟩ := hs.of_call hc
    obtain rfl := Option.some.inj (hp.symm.trans hr)
    obtain rfl := Event.trap.inj (hl.symm.trans hl')
    obtain ⟨-, rfl⟩ := Prod.mk.inj (Option.some.inj hcall)
    rw [finish_locks]
    obtain rfl := Option.some.inj hrel
    rcases sysRelease_cases (hcalling hv).ok p (u.regs 0).toInt with ⟨-, hnone⟩ | ⟨-, a, hun⟩
    · exact absurd hnone hfind
    · exact ⟨a, hun.find, hun.free⟩
  split at hrel
  swap
  · exact absurd hrel (by simp)
  rename_i hc
  obtain ⟨u', r, o, τ, hl', hv, hr, hcall, rfl, -⟩ := hs.of_call hc
  obtain rfl := Option.some.inj (hp.symm.trans hr)
  obtain rfl := Event.trap.inj (hl.symm.trans hl')
  obtain rfl := Option.some.inj hrel
  obtain ⟨a, τ', hun, hlocks⟩ := sysCvarWait_unlocks (hcalling hv) hcall hfind
  refine ⟨a, hun.find, ?_⟩
  rw [finish_locks, hlocks]
  exact hun.free

/-! ## The invariant -/

/-- A lock that is held is the one that its id names, and the process noted in it is the
holder. -/
structure Exclusive (tr : List (Move Kernel Label)) (σ : Kernel) : Prop where
  first : ∀ a ∈ σ.locks.list, (σ.locks.cell a).locked = true →
    σ.locks.find? (fun l => l.lockid = (σ.locks.cell a).lockid) = some a
  holder : ∀ x p, Holds x p tr ↔ σ.Owns x p

namespace Exclusive

/-- The first lock with an id that is held by `p` is the first lock with the id. -/
theorem find (h : Exclusive tr σ)
    (hfind : σ.locks.find? (fun l => l.lockid = x ∧ l.pid = p ∧ l.locked = true) = some a) :
    σ.locks.find? (fun l => l.lockid = x) = some a ∧ (σ.locks.cell a).locked = true ∧
      (σ.locks.cell a).pid = p := by
  have hprop := Table.prop_of_find? hfind
  obtain ⟨hid, hpid, hlocked⟩ := of_decide_eq_true hprop
  refine ⟨?_, hlocked, hpid⟩
  rw [← hid]
  exact h.first a (Table.mem_of_find? hfind) hlocked

/-- A lock that is held after a step has been taken in it, or was held by the same process
before. -/
theorem held (hsaved : σ.Saved) (hinv : σ.Placed) (hs : Steps σ l σ')
    (ha : σ.Allocates l σ') (hi : σ.IdlePauses l) (hm : a ∈ σ'.locks.list)
    (hlocked : (σ'.locks.cell a).locked = true) : a ∈ σ.locks.list ∧
      (σ'.locks.cell a).lockid = (σ.locks.cell a).lockid ∧
        ((σ.locks.cell a).locked = true ∧ (σ'.locks.cell a).pid = (σ.locks.cell a).pid ∨
          Gains (σ.locks.cell a).lockid (σ'.locks.cell a).pid ⟨σ, l, σ'⟩ ∧
            σ.locks.find? (fun l => l.lockid = (σ.locks.cell a).lockid) = some a) := by
  cases lock_step hinv hs ha hi hm with
  | same hmem hcell =>
      rw [hcell] at hlocked
      exact ⟨hmem, by rw [hcell], .inl ⟨hlocked, by rw [hcell]⟩⟩
  | fresh _ y hcell =>
      rw [hcell] at hlocked
      exact absurd hlocked (by simp)
  | @taken r y hmem hp hx ho hfree hcell =>
      have hfind := hx.find hsaved hinv hs hp
      have hprop := Table.prop_of_find? hfind
      obtain rfl : (σ.locks.cell a).lockid = y := of_decide_eq_true hprop
      refine ⟨hmem, by rw [hcell], .inr ⟨?_, hfind⟩⟩
      rw [hcell]
      exact ⟨hp, ho, a, hx⟩
  | queued hmem _ _ _ hheld _ _ hcell =>
      exact ⟨hmem, by rw [hcell], .inl ⟨hheld, by rw [hcell]⟩⟩
  | released _ _ _ _ hcell =>
      rcases hcell with ⟨-, hcell⟩ | ⟨q, rest, -, -, hcell⟩
      · rw [hcell] at hlocked
        exact absurd hlocked (by simp)
      · rw [hcell] at hlocked
        exact absurd hlocked (by simp)

theorem step (h : Exclusive tr σ) (hsaved : σ.Saved) (hinv : σ.Placed) (hs : Steps σ l σ')
    (ha : σ.Allocates l σ') (hi : σ.IdlePauses l) (hn : NoReclaim l) :
    Exclusive (tr ++ [⟨σ, l, σ'⟩]) σ' := by
  have hids := (id_step hs).1
  constructor
  · intro a hm hlocked
    obtain ⟨hmem, hid, hold⟩ := held hsaved hinv hs ha hi hm hlocked
    rw [hid]
    refine hids.find?_of_some hn ?_
    rcases hold with ⟨hheld, -⟩ | ⟨-, hfind⟩
    · exact h.first a hmem hheld
    · exact hfind
  · intro x p
    unfold Holds
    rw [since_snoc]
    constructor
    · rintro (hgain | ⟨hholds, hkeep⟩)
      · exact hgain.owns hinv hsaved hs ha hi hn
      · exact ((h.holder x p).1 hholds).step hinv hs ha hi hn hkeep
    · rintro ⟨a, hfind', hlocked, hpid⟩
      have hprop := Table.prop_of_find? hfind'
      have hx : (σ'.locks.cell a).lockid = x := of_decide_eq_true hprop
      obtain ⟨hmem, hid, hold⟩ :=
        held hsaved hinv hs ha hi (Table.mem_of_find? hfind') hlocked
      rw [hid] at hx
      subst hx
      rcases hold with ⟨hheld, hpid'⟩ | ⟨hgain, -⟩
      · have howns : σ.Owns (σ.locks.cell a).lockid p :=
          ⟨a, h.first a hmem hheld, hheld, hpid'.symm.trans hpid⟩
        refine .inr ⟨(h.holder _ p).2 howns, fun hloses => ?_⟩
        -- the lock that `p` gave up would be this one, and free
        obtain ⟨c, hc, hfree⟩ := hloses.free hinv hs ha hi
        obtain rfl := Option.some.inj ((h.find hc).1.symm.trans (h.first a hmem hheld))
        exact absurd (hlocked.symm.trans hfree) (by simp)
      · rw [hpid] at hgain
        exact .inl hgain

theorem boot (hb : Booted σ) : Exclusive [] σ := by
  have hnone : ∀ f, σ.locks.find? f = none := fun f => by simp [Table.find?, hb.locks]
  constructor
  · intro a hm
    rw [hb.locks] at hm
    exact absurd hm (by simp)
  · intro x p
    constructor
    · intro h
      exact absurd h not_since_nil
    · rintro ⟨a, hfind, -⟩
      rw [hnone] at hfind
      exact absurd hfind (by simp)

end Exclusive

theorem saved_boot (hb : Booted σ) : σ.Saved := by
  constructor
  · intro q _ _ via a x e hk
    rw [hb.kctxt] at hk
    exact absurd hk (by simp)
  · intro q _ _ a c x hk
    rw [hb.kctxt] at hk
    exact absurd hk (by simp)

theorem ids_boot (hb : Booted σ) : σ.Ids := by
  constructor
  · intro a ha
    rw [hb.locks] at ha
    exact absurd ha (by simp)
  · intro a ha
    rw [hb.cvars] at ha
    exact absurd ha (by simp)

/-- The condition under which locks and condition variables keep their ids. -/
def Keeps (σ : Kernel) (l : Label) (σ' : Kernel) : Prop :=
  (σ.Allocates l σ' ∧ σ.IdlePauses l) ∧ NoReclaim l

instance (σ : Kernel) (l : Label) (σ' : Kernel) : Decidable (σ.Keeps l σ') :=
  inferInstanceAs (Decidable (_ ∧ _))

/-- What holds in every run in which nothing is reclaimed. -/
theorem exclusive_of_run (hok : ∀ a ∈ b.procMallocs, a.ok = true) (h₀ : kernelStart b = some σ₀)
    (h : Run Kernel.step Keeps σ₀ tr σ) :
    Exclusive tr σ ∧ σ.Saved ∧ σ.Ids ∧ σ.Placed ∧ σ.Stacked := by
  have hb := kernelStart_booted h₀
  refine h.history (I := fun tr σ => Exclusive tr σ ∧ σ.Saved ∧ σ.Ids ∧ σ.Placed ∧ σ.Stacked)
    ⟨.boot hb, saved_boot hb, ids_boot hb, placed_boot hb (kernelStart_ready hok h₀),
      stacked_boot h₀⟩ ?_
  rintro tr σ l σ' ⟨hexcl, hsaved, hids, hinv, hst⟩ hs ⟨⟨ha, hi⟩, hn⟩
  have hs := step_cases hs
  exact ⟨hexcl.step hsaved hinv hs ha hi hn, hsaved.step hinv hst hids hs ha hi hn,
    hids.step hs, hinv.step hs ha hi, hst.step hinv hs ha hi⟩

/-- A Release by a process that does not hold the lock fails and changes nothing. -/
theorem Exclusive.release_fails (h : Exclusive tr σ) (hs : Steps σ l σ')
    (hc : l.call = some .lockRelease) (hx : releaseId l = some x) (hp : σ.activeProc = some p)
    (hnot : ¬Holds x p tr) : ∃ u, l.event = .trap u ∧
      σ' = finish (.ret error, (σ.begin l).enter u) := by
  obtain ⟨u, r, o, τ, hl, hv, hr, hcall, rfl, -⟩ := hs.of_call hc
  obtain rfl := Option.some.inj (hp.symm.trans hr)
  refine ⟨u, hl, ?_⟩
  have hreg : (u.regs 0).toInt = x := by
    simpa [releaseId, hl, hc] using hx
  have hnone : σ.locks.find? (fun l => l.lockid = x ∧ l.pid = p ∧ l.locked = true) = none := by
    cases hfind : σ.locks.find? fun l => l.lockid = x ∧ l.pid = p ∧ l.locked = true with
    | none => rfl
    | some a =>
        obtain ⟨hfirst, hlocked, hpid⟩ := h.find hfind
        exact absurd ((h.holder x p).2 ⟨a, hfirst, hlocked, hpid⟩) hnot
  obtain ⟨rfl, rfl⟩ := Prod.mk.inj (Option.some.inj hcall)
  have hrelease : ((σ.begin l).enter u).sysRelease p (((σ.begin l).enter u).reg 0).toInt =
      (error, (σ.begin l).enter u) := by
    change ((σ.begin l).enter u).sysRelease p (u.regs 0).toInt = _
    rw [hreg]
    unfold sysRelease
    rw [show ((σ.begin l).enter u).locks = σ.locks from rfl, hnone]
  rw [hrelease]

/-- In every run in which allocations succeed, idle only pauses and nothing is reclaimed, a
lock id has one holder at most; the lock that an Acquire on it finds is held, with the holder's
pid in it, if and only if there is a holder; and a Release by anybody else fails and changes
nothing. -/
theorem run_mutual_exclusion (hok : ∀ a ∈ b.procMallocs, a.ok = true)
    (h₀ : kernelStart b = some σ₀) (h : Run Kernel.step Keeps σ₀ tr σ) (x : Int) :
    (∀ p q, Holds x p tr → Holds x q tr → p = q) ∧
      (∀ a, σ.locks.find? (fun l => l.lockid = x) = some a → ∀ p, Holds x p tr ↔
        (σ.locks.cell a).locked = true ∧ (σ.locks.cell a).pid = p) ∧
      ∀ l p σ', σ.step l = some σ' → l.call = some .lockRelease → releaseId l = some x →
        σ.activeProc = some p → ¬Holds x p tr → ∃ u, l.event = .trap u ∧
          σ' = finish (.ret error, (σ.begin l).enter u) := by
  have hexcl := (exclusive_of_run hok h₀ h).1
  refine ⟨fun p q hp hq => ?_, fun a ha p => ?_, fun l p σ' hs hc hx hp hnot => ?_⟩
  · exact ((hexcl.holder x p).1 hp).unique ((hexcl.holder x q).1 hq)
  · rw [hexcl.holder]
    constructor
    · rintro ⟨c, hc, howner⟩
      obtain rfl := Option.some.inj (ha.symm.trans hc)
      exact howner
    · exact fun howner => ⟨a, ha, howner⟩
  · exact hexcl.release_fails (step_cases hs) hc hx hp hnot

/-- The theorem on a run in which init holds a lock while its child runs. -/
theorem run_mutual_exclusion_child : ∃ σ₀ tr σ, kernelStart smallBoot = some σ₀ ∧
    Run Kernel.step Keeps σ₀ tr σ ∧ (σ.Owns 1 0 ∧ σ.activeProc = some 2) ∧
      ((∀ p q, Holds 1 p tr → Holds 1 q tr → p = q) ∧
        (∀ a, σ.locks.find? (fun l => l.lockid = 1) = some a → ∀ p, Holds 1 p tr ↔
          (σ.locks.cell a).locked = true ∧ (σ.locks.cell a).pid = p) ∧
        ∀ l p σ', σ.step l = some σ' → l.call = some .lockRelease → releaseId l = some 1 →
          σ.activeProc = some p → ¬Holds 1 p tr → ∃ u, l.event = .trap u ∧
            σ' = finish (.ret error, (σ.begin l).enter u)) := by
  obtain ⟨σ₀, tr, σ, h₀, hr, hP⟩ := bootExec_state (b := smallBoot) (C := Keeps)
    (P := fun σ => σ.Owns 1 0 ∧ σ.activeProc = some 2)
    (t := [smallCall .lockInit vmem1Base 0 0, smallCall .lockAcquire 1 0 0,
      smallCall .fork 0 0 0, clockTick, resumption])
    (by decide +kernel)
  exact ⟨σ₀, tr, σ, h₀, hr, hP, run_mutual_exclusion (by simp [smallBoot]) h₀ hr 1⟩

end Kernel

end Yalnix
