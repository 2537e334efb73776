import Yalnix.Sync.Cvar

/-!
# The holder of a lock

A process holds the lock with an id from its Acquire, or the end of its CvarWait, to its
Release or next CvarWait. As long as nothing is reclaimed, the id names the same lock all
the time, so a process that continues an Acquire finds the lock that its id names, and the
lock is marked with its only holder.
-/

namespace Yalnix

open Transition

namespace Kernel

variable {σ σ' : Kernel} {l : Label} {p q : Pid} {o : Outcome} {a : ℕ} {x : Int}
  {tr : List (Move Kernel Label)}

/-- In this move the Acquire of `p` on the lock id `x`, or the one at the end of its
CvarWait, succeeds. -/
def Gains (x : Int) (p : Pid) (m : Move Kernel Label) : Prop :=
  m.before.activeProc = some p ∧ m.before.outcome m.label = some (.ret 0) ∧
    ∃ a, m.before.AcquiresAt m.label p a x

/-- In this move a Release or CvarWait of `p` gives up a lock with id `x`. -/
def Loses (x : Int) (p : Pid) (m : Move Kernel Label) : Prop :=
  m.before.activeProc = some p ∧ releaseId m.label = some x ∧
    (m.before.locks.find? fun l => l.lockid = x ∧ l.pid = p ∧ l.locked = true) ≠ none

/-- Process `p` holds the lock with id `x`. -/
def Holds (x : Int) (p : Pid) (tr : List (Move Kernel Label)) : Prop :=
  Since (Gains x p) (fun m => ¬Loses x p m) tr

/-- The step makes no Reclaim. -/
def NoReclaim (l : Label) : Prop := l.call ≠ some .reclaim

instance (l : Label) : Decidable (NoReclaim l) := inferInstanceAs (Decidable (_ ≠ _))

/-! ## Processes in the middle of Acquire and CvarWait -/

/-- What a process in the kernel has noted about a lock or a cvar is so. -/
structure Saved (σ : Kernel) : Prop where
  lock : ∀ q ∈ σ.live, ¬σ.inUser q → ∀ via a x e, (σ.pcb q).kctxt = .acquire via a x e →
    σ.locks.find? (fun l => l.lockid = x) = some a
  cvar : ∀ q ∈ σ.live, ¬σ.inUser q → ∀ a c x, (σ.pcb q).kctxt = .cvarWait a c x →
    σ.cvars.find? (fun y => y.cvarid = c) = some a ∧ 0 < x

theorem sysAcquire_blocks {via : Option Int} {i : Int} (hcall : σ.Calling p)
    (h : σ.sysAcquire p via i = some (.switched, σ')) :
    ∃ b y, (if i = 0 then (σ.reg 0).toInt else i) = y ∧
      σ.locks.find? (fun l => l.lockid = y) = some b ∧
        (σ'.pcb p).kctxt = .acquire via b y false := by
  unfold sysAcquire at h
  dsimp only at h
  split at h
  · simp at h
  split at h
  · simp at h
  · rename_i b hfind
    refine ⟨b, _, rfl, hfind, ?_⟩
    obtain ⟨-, ⟨-, -, hk, -⟩ | ⟨-, ho, -⟩⟩ := acquireLoop_cases hcall h
    · exact hk
    · simp at ho

/-- Where a step has left its process in Acquire: the lock that it waits for is the one
that the id names. -/
theorem left_acquire {via : Option Int} {e : Bool} (hinv : σ.Placed) (hsaved : σ.Saved)
    (hs : Steps σ l σ') (ha : σ.Allocates l σ') (hi : σ.IdlePauses l)
    (hp : σ.activeProc = some p) (hu : ¬σ'.inUser p)
    (hleft : σ.leftAt l p (.acquire via a x e))
    (hk : (σ'.pcb p).kctxt = .acquire via a x e) :
    σ.locks.find? (fun l => l.lockid = x) = some a := by
  rcases hleft with ⟨c, hc, hplace⟩ | ⟨-, hplace⟩ | ⟨hl, hplace⟩
  · have hblocked := fun hne => hs.blocked_call hc hne hp hu
    cases c with
    | lockAcquire =>
        obtain ⟨u, hl, hv, hcall⟩ := hblocked (by simp)
        have hc := hinv.calling (enter_touches σ l u) ha.begin hp (hi.ne hl hp (by simp [hv]))
        obtain ⟨b, y, -, hfind, hk'⟩ := sysAcquire_blocks (i := 0) hc hcall
        obtain ⟨-, rfl, rfl, -⟩ := KernelContext.acquire.inj (hk.symm.trans hk')
        exact hfind
    | cvarWait =>
        obtain ⟨u, hl, hv, hcall⟩ := hblocked (by simp)
        have hc := hinv.calling (enter_touches σ l u) ha.begin hp (hi.ne hl hp (by simp [hv]))
        rcases sysCvarWait_cases hc hcall with ⟨ho, -⟩ | ⟨_, _, -, -, -, -, hk', -⟩
        · simp at ho
        · exact absurd (hk.symm.trans hk') (by simp)
    | _ => simp [blockPlaces] at hplace
  · simp at hplace
  · have hcall := hs.blocked_resume hl hp hu
    cases hkp : (σ.pcb p).kctxt with
    | acquire via' b y e' =>
        rw [hkp] at hplace
        obtain ⟨e'', hplace⟩ := hplace
        obtain ⟨-, rfl, rfl, -⟩ := KernelContext.acquire.inj hplace
        obtain ⟨p', -, -, hm, hp', -⟩ := hs.of_resume hl
        refine hsaved.lock p (hinv.live_of_active hp) ?_ _ _ _ _ hkp
        rintro ⟨-, hm'⟩
        exact absurd (hm'.symm.trans hm) (by simp)
    | cvarWait c i y =>
        have hc := hinv.continuing ha hp (by simp [hkp])
        rw [hkp] at hcall
        change ((σ.begin l).restore p).sysCvarWaitResume p i y = _ at hcall
        unfold sysCvarWaitResume at hcall
        split at hcall
        · obtain ⟨b, z, -, hfind, hk'⟩ := sysAcquire_blocks hc hcall
          obtain ⟨-, rfl, rfl, -⟩ := KernelContext.acquire.inj (hk.symm.trans hk')
          exact hfind
        · simp at hcall
    | _ =>
        rw [hkp] at hplace
        simp [blocksAgain] at hplace

/-- The same in CvarWait. -/
theorem left_cvarWait {c : Int} (hinv : σ.Placed) (hids : σ.Ids)
    (hs : Steps σ l σ') (ha : σ.Allocates l σ') (hi : σ.IdlePauses l)
    (hp : σ.activeProc = some p) (hu : ¬σ'.inUser p) (hleft : σ.leftAt l p (.cvarWait a c x))
    (hk : (σ'.pcb p).kctxt = .cvarWait a c x) : l.call = some .cvarWait ∧ l.arg 0 = c ∧
      l.arg 1 = x ∧ σ.cvars.find? (fun y => y.cvarid = c) = some a ∧ 0 < x := by
  rcases hleft with ⟨c', hc, hplace⟩ | ⟨-, hplace⟩ | ⟨-, hplace⟩
  · have hblocked := fun hne => hs.blocked_call hc hne hp hu
    cases c' with
    | cvarWait =>
        obtain ⟨u, hl, hv, hcall⟩ := hblocked (by simp)
        have hc' := hinv.calling (enter_touches σ l u) ha.begin hp (hi.ne hl hp (by simp [hv]))
        rcases sysCvarWait_cases hc' hcall with ⟨ho, -⟩ | ⟨b, a', hlock, -, hfind, -, hk', -⟩
        · simp at ho
        · obtain ⟨rfl, rfl, rfl⟩ := KernelContext.cvarWait.inj (hk.symm.trans hk')
          have hid := Table.prop_of_find? hlock
          refine ⟨hc, by simp [Label.arg, hl, enter, reg], by simp [Label.arg, hl, enter, reg],
            hfind, ?_⟩
          rw [← (of_decide_eq_true hid).1]
          exact hids.locks b (Table.mem_of_find? hlock)
    | _ => simp [blockPlaces] at hplace
  · simp at hplace
  · cases hkp : (σ.pcb p).kctxt <;> simp [hkp, blocksAgain] at hplace

theorem Saved.step (h : σ.Saved) (hinv : σ.Placed) (hst : σ.Stacked) (hids : σ.Ids)
    (hs : Steps σ l σ') (ha : σ.Allocates l σ') (hi : σ.IdlePauses l) (hn : NoReclaim l) :
    σ'.Saved := by
  obtain ⟨hlocks, hcvars⟩ := id_step hs
  constructor
  · intro q hq hu via a x e hk
    refine hlocks.find?_of_some hn ?_
    rcases hst.left hinv hs ha hi hq hu (by simp [hk]) with
      ⟨hact, hleft, -⟩ | ⟨hact, hlive, hkctxt, -⟩
    · exact left_acquire hinv h hs ha hi hact hu (hk ▸ hleft) hk
    · exact h.lock q hlive (fun hin => hact hin.1) via a x e (hkctxt ▸ hk)
  · intro q hq hu a c x hk
    have hcvar : σ.cvars.find? (fun y => y.cvarid = c) = some a ∧ 0 < x := by
      rcases hst.left hinv hs ha hi hq hu (by simp [hk]) with
        ⟨hact, hleft, -⟩ | ⟨hact, hlive, hkctxt, -⟩
      · exact (left_cvarWait hinv hids hs ha hi hact hu (hk ▸ hleft) hk).2.2.2
      · exact h.cvar q hlive (fun hin => hact hin.1) a c x (hkctxt ▸ hk)
    exact ⟨hcvars.find?_of_some hn hcvar.1, hcvar.2⟩

/-! ## A lock and its holder -/

theorem sysAcquire_returns {via : Option Int} {i : Int} (hid : 0 ≤ i)
    (h : σ.sysAcquire p via i = some (.ret 0, σ')) :
    ∃ b y, (if i = 0 then (σ.reg 0).toInt else i) = y ∧
      σ.locks.find? (fun l => l.lockid = y) = some b ∧
        σ.acquireLoop p via b y false = some (.ret 0, σ') := by
  unfold sysAcquire at h
  dsimp only at h
  rw [if_neg (not_lt.2 hid)] at h
  split at h
  · simp [error] at h
  · rename_i b hfind
    exact ⟨b, _, rfl, hfind, h⟩

/-- An Acquire that succeeds has found its lock free and taken it. -/
theorem AcquiresAt.loop (hx : σ.AcquiresAt l p a x)
    (hpos : σ.userMode = false → ∀ c i y, (σ.pcb p).kctxt = .cvarWait c i y → 0 < y)
    (hs : Steps σ l σ')
    (hp : σ.activeProc = some p) (ho : σ.outcome l = some (.ret 0)) :
    ∃ via e τ, (σ.callState l).acquireLoop p via a x e = some (.ret 0, τ) ∧
      σ' = finish (.ret 0, τ) := by
  cases hx with
  | @call u hl hc hx ha =>
      obtain ⟨u', r, o, τ, hl', -, hr, hcall, rfl, ho'⟩ := hs.of_call hc
      obtain rfl := Option.some.inj (hp.symm.trans hr)
      obtain rfl := Option.some.inj (ho'.symm.trans ho)
      obtain rfl : u = u' := by
        rw [hl] at hl'
        exact Event.trap.inj hl'
      obtain ⟨b, y, rfl, hfind, hloop⟩ := sysAcquire_returns (i := 0) le_rfl hcall
      have hreg : (((σ.begin l).enter u).reg 0).toInt = x := hx
      rw [if_pos rfl, hreg] at hfind hloop
      obtain rfl := Option.some.inj (hfind.symm.trans ha)
      refine ⟨none, false, τ, ?_, rfl⟩
      rw [show σ.callState l = (σ.begin l).enter u by simp [callState, hl]]
      exact hloop
  | @again via e hl hk =>
      obtain ⟨r, o, τ, -, hr, hcall, rfl, ho'⟩ := hs.of_resume hl
      obtain rfl := Option.some.inj (hp.symm.trans hr)
      obtain rfl := Option.some.inj (ho'.symm.trans ho)
      rw [hk] at hcall
      change ((σ.begin l).restore p).sysAcquireResume p via a x e = _ at hcall
      unfold sysAcquireResume at hcall
      dsimp only at hcall
      split at hcall
      · rename_i hexist
        rw [hexist] at hcall
        refine ⟨via, true, τ, ?_, rfl⟩
        rw [show σ.callState l = (σ.begin l).restore p by simp [callState, hl, hp]]
        exact hcall
      · simp [error] at hcall
  | @after c cvarId y hl hk hy ha =>
      obtain ⟨r, o, τ, hm, hr, hcall, rfl, ho'⟩ := hs.of_resume hl
      obtain rfl := Option.some.inj (hp.symm.trans hr)
      obtain rfl := Option.some.inj (ho'.symm.trans ho)
      rw [hk] at hcall
      change ((σ.begin l).restore p).sysCvarWaitResume p cvarId y = _ at hcall
      unfold sysCvarWaitResume at hcall
      have hy₀ : 0 < y := hpos hm _ _ _ hk
      split at hcall
      · obtain ⟨b, z, rfl, hfind, hloop⟩ := sysAcquire_returns hy₀.le hcall
        rw [if_neg hy₀.ne', hy hy₀.ne'] at hfind hloop
        obtain rfl := Option.some.inj (hfind.symm.trans ha)
        refine ⟨some cvarId, false, τ, ?_, rfl⟩
        rw [show σ.callState l = (σ.begin l).restore p by simp [callState, hl, hp]]
        exact hloop
      · simp [error] at hcall

/-- Where an Acquire comes to is the lock that its id names. -/
theorem AcquiresAt.find (hx : σ.AcquiresAt l p a x) (hsaved : σ.Saved) (hinv : σ.Placed)
    (hs : Steps σ l σ') (hp : σ.activeProc = some p) :
    σ.locks.find? (fun l => l.lockid = x) = some a := by
  cases hx with
  | call _ _ _ ha => exact ha
  | after _ _ _ ha => exact ha
  | @again via e hl hk =>
      obtain ⟨r, -, -, hm, -⟩ := hs.of_resume hl
      refine hsaved.lock p (hinv.live_of_active hp) ?_ via a x e hk
      rintro ⟨-, hm'⟩
      exact absurd (hm'.symm.trans hm) (by simp)

theorem Saved.positive (hsaved : σ.Saved) (hinv : σ.Placed) (hp : σ.activeProc = some p)
    (hm : σ.userMode = false) : ∀ c i y, (σ.pcb p).kctxt = .cvarWait c i y → 0 < y := by
  intro c i y hk
  refine (hsaved.cvar p (hinv.live_of_active hp) ?_ c i y hk).2
  rintro ⟨-, hm'⟩
  exact absurd (hm'.symm.trans hm) (by simp)

theorem AcquiresAt.calling (hx : σ.AcquiresAt l p a x) (hinv : σ.Placed)
    (ha : σ.Allocates l σ') (hi : σ.IdlePauses l) (hp : σ.activeProc = some p) :
    (σ.callState l).Calling p := by
  cases hx with
  | @call u hl hc =>
      have hv := Label.vector_of_call hc
      simp only [Label.vector, hl, Option.some.injEq] at hv
      simp only [callState, hl]
      exact hinv.calling (enter_touches σ l u) ha.begin hp (hi.ne hl hp (by simp [hv]))
  | again hl hk =>
      simp only [callState, hl, hp]
      exact hinv.continuing ha hp (by simp [hk])
  | after hl hk =>
      simp only [callState, hl, hp]
      exact hinv.continuing ha hp (by simp [hk])

/-- The lock with id `x` is held, and `p` is noted as its owner. -/
def Owns (σ : Kernel) (x : Int) (p : Pid) : Prop :=
  ∃ a, σ.locks.find? (fun l => l.lockid = x) = some a ∧ (σ.locks.cell a).locked = true ∧
    (σ.locks.cell a).pid = p

instance (σ : Kernel) (x : Int) (p : Pid) : Decidable (σ.Owns x p) :=
  decidable_of_iff (∃ a ∈ σ.locks.find? fun l => l.lockid = x, (σ.locks.cell a).locked = true ∧
    (σ.locks.cell a).pid = p) Iff.rfl

/-- The owner of a lock is unique. -/
theorem Owns.unique (h : σ.Owns x p) (h' : σ.Owns x q) : p = q := by
  obtain ⟨a, ha, -, hp⟩ := h
  obtain ⟨b, hb, -, hq⟩ := h'
  obtain rfl := Option.some.inj (ha.symm.trans hb)
  exact hp.symm.trans hq

/-- An Acquire that succeeds makes its process the owner. -/
theorem Gains.owns (h : Gains x p ⟨σ, l, σ'⟩) (hinv : σ.Placed) (hsaved : σ.Saved)
    (hs : Steps σ l σ') (ha : σ.Allocates l σ') (hi : σ.IdlePauses l) (hn : NoReclaim l) :
    σ'.Owns x p := by
  obtain ⟨hp, ho, a, hx⟩ := h
  dsimp only at hp ho hx
  have hfind := hx.find hsaved hinv hs hp
  obtain ⟨via, e, τ, hloop, rfl⟩ := hx.loop (hsaved.positive hinv hp) hs hp ho
  refine ⟨a, (id_step hs).1.find?_of_some hn hfind, ?_⟩
  rw [finish_locks]
  obtain ⟨hmem, ⟨-, hsw, -⟩ | ⟨-, -, -, hwrite⟩⟩ :=
    acquireLoop_cases (hx.calling hinv ha hi hp) hloop
  · simp at hsw
  · rw [hwrite, Table.cell_write_self hmem]
    exact ⟨rfl, rfl⟩

/-- The owner stays the owner until it gives up the lock. -/
theorem Owns.step (h : σ.Owns x p) (hinv : σ.Placed) (hs : Steps σ l σ')
    (ha : σ.Allocates l σ') (hi : σ.IdlePauses l) (hn : NoReclaim l)
    (hkeep : ¬Loses x p ⟨σ, l, σ'⟩) : σ'.Owns x p := by
  obtain ⟨a, hfind, hlocked, hpid⟩ := h
  have hfind' := (id_step hs).1.find?_of_some hn hfind
  refine ⟨a, hfind', ?_⟩
  cases lock_step hinv hs ha hi (Table.mem_of_find? hfind') with
  | same _ hcell => exact hcell ▸ ⟨hlocked, hpid⟩
  | fresh hm => exact absurd (Table.mem_of_find? hfind) hm
  | taken _ _ _ _ hfree => exact absurd (hlocked.symm.trans hfree) (by simp)
  | queued _ _ _ _ _ _ _ hcell => exact hcell ▸ ⟨hlocked, hpid⟩
  | @released r y _ hr hy hfound _ =>
      have hprop := Table.prop_of_find? hfound
      obtain ⟨hid, howner, -⟩ := of_decide_eq_true hprop
      have hid' := Table.prop_of_find? hfind
      obtain rfl : y = x := hid.symm.trans (of_decide_eq_true hid')
      obtain rfl : r = p := howner.symm.trans hpid
      exact absurd ⟨hr, hy, fun hnone => Option.some_ne_none a (hfound.symm.trans hnone)⟩ hkeep

end Kernel

end Yalnix
