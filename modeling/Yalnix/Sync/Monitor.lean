import Yalnix.Sync.Mutex

/-!
# Condition variables as monitors

Two histories of a cvar are read off the moves of a run: who has entered its waiting list,
and whom a signal or broadcast has taken out of it. As long as nothing is reclaimed, the
first is the second followed by the processes that still wait, so no signal is lost and none
wakes a process twice. A process in the middle of a CvarWait has not called the kernel since
then, and so exactly one signal or broadcast has moved it when it runs again.
-/

namespace Yalnix

open Transition

namespace Kernel

variable {σ σ' σ₀ : Kernel} {l : Label} {p q : Pid} {o : Outcome} {a : ℕ} {x : Int}
  {tr : List (Move Kernel Label)} {b : Boot}

/-! ## The histories of a cvar -/

/-- The process that step `l` puts into the waiting list of the cvar at `a`. -/
def enters (σ : Kernel) (l : Label) (a : ℕ) : List Pid :=
  if σ.cvarNamed l .cvarWait = some a ∧ σ.outcome l = some .switched then σ.activeProc.toList
  else []

/-- The processes that the CvarSignal or CvarBroadcast of step `l` moves. -/
def signals (σ : Kernel) (l : Label) (a : ℕ) : List Pid :=
  if σ.cvarNamed l .cvarSignal = some a then (σ.cvars.cell a).cvarWaitList.take 1
  else if σ.cvarNamed l .cvarBroadcast = some a then (σ.cvars.cell a).cvarWaitList
  else []

/-- The processes that have begun to wait for the cvar at `a`, in this order. -/
def entered (a : ℕ) (tr : List (Move Kernel Label)) : List Pid :=
  tr.flatMap fun m => m.before.enters m.label a

/-- The processes that signals and broadcasts on the cvar at `a` have moved, in this order. -/
def signalled (a : ℕ) (tr : List (Move Kernel Label)) : List Pid :=
  tr.flatMap fun m => m.before.signals m.label a

theorem entered_append (a : ℕ) (tr tr' : List (Move Kernel Label)) :
    entered a (tr ++ tr') = entered a tr ++ entered a tr' := List.flatMap_append ..

theorem signalled_append (a : ℕ) (tr tr' : List (Move Kernel Label)) :
    signalled a (tr ++ tr') = signalled a tr ++ signalled a tr' := List.flatMap_append ..

@[simp] theorem entered_single (a : ℕ) (m : Move Kernel Label) :
    entered a [m] = m.before.enters m.label a := by simp [entered]

@[simp] theorem signalled_single (a : ℕ) (m : Move Kernel Label) :
    signalled a [m] = m.before.signals m.label a := by simp [signalled]

/-- Only one of the three calls is made in a step. -/
theorem cvarNamed_unique {c c' : Call} (h : σ.cvarNamed l c = some a) (hne : c' ≠ c) :
    σ.cvarNamed l c' = none := by
  refine cvarNamed_eq_none fun hc' => hne ?_
  unfold cvarNamed at h
  split at h
  · rename_i hc
    exact Option.some.inj (hc'.symm.trans hc)
  · exact absurd h (by simp)

theorem enters_of_not_mem (ha : a ∉ σ.cvars.list) : σ.enters l a = [] :=
  if_neg fun h => ha (mem_of_cvarNamed h.1)

theorem signals_of_not_mem (ha : a ∉ σ.cvars.list) : σ.signals l a = [] := by
  unfold signals
  rw [if_neg fun h => ha (mem_of_cvarNamed h), if_neg fun h => ha (mem_of_cvarNamed h)]

/-- Without a Reclaim no cvar leaves the list. -/
theorem cvar_stays (hs : Steps σ l σ') (hn : NoReclaim l) (ha : a ∈ σ.cvars.list) :
    a ∈ σ'.cvars.list := by
  cases (id_step hs).2 with
  | same hlist _ => exact hlist ▸ ha
  | alloc hint y _ hu =>
      rw [hu]
      exact List.mem_append_left _ ha
  | free hr => exact absurd hr hn

/-- Who has entered has been moved or still waits, in the order of entry. -/
structure Passed (tr : List (Move Kernel Label)) (σ : Kernel) (a : ℕ) : Prop where
  there : a ∈ σ.cvars.list → entered a tr = signalled a tr ++ (σ.cvars.cell a).cvarWaitList
  before : a ∉ σ.cvars.list → entered a tr = [] ∧ signalled a tr = []

theorem Passed.step (h : Passed tr σ a) (hinv : σ.Placed) (hids : σ.Ids) (hs : Steps σ l σ')
    (hal : σ.Allocates l σ') (hi : σ.IdlePauses l) (hn : NoReclaim l) :
    Passed (tr ++ [⟨σ, l, σ'⟩]) σ' a := by
  constructor
  · intro ha
    rw [entered_append, signalled_append, entered_single, signalled_single]
    dsimp only
    cases cvar_step hinv hids hs hal hi ha with
    | same hm hcell hw hsig hbro =>
        have hnone : σ.enters l a = [] := by
          refine if_neg fun hent => ?_
          exact absurd ((hw hent.1).symm.trans hent.2) (by simp)
        rw [hnone, signals, if_neg hsig, if_neg hbro, List.append_nil, List.append_nil, hcell]
        exact h.there hm
    | fresh hm y hcell =>
        obtain ⟨hent, hsig⟩ := h.before hm
        rw [enters_of_not_mem hm, signals_of_not_mem hm, hent, hsig, hcell]
        rfl
    | @waits r hm hp hw ho hk hlock hcell =>
        have hent : σ.enters l a = [r] := by
          rw [enters, if_pos ⟨hw, ho⟩, hp]
          rfl
        have hsig : σ.signals l a = [] := by
          rw [signals, cvarNamed_unique hw (by simp), cvarNamed_unique hw (by simp)]
          simp
        rw [hent, hsig, List.append_nil, hcell, h.there hm, List.append_assoc]
    | @woken n hm hcall hready hcell =>
        have hnone : σ.enters l a = [] := by
          refine if_neg fun hent => ?_
          rcases hcall with ⟨hc, -⟩ | ⟨hc, -⟩
          · exact absurd ((cvarNamed_unique hc (by simp)).symm.trans hent.1) (by simp)
          · exact absurd ((cvarNamed_unique hc (by simp)).symm.trans hent.1) (by simp)
        have hsig : σ.signals l a = (σ.cvars.cell a).cvarWaitList.take n := by
          unfold signals
          rcases hcall with ⟨hc, rfl⟩ | ⟨hc, rfl⟩
          · rw [if_pos hc]
          · rw [cvarNamed_unique hc (by simp), if_neg (by simp), if_pos hc, List.take_length]
        rw [hnone, hsig, hcell, List.append_nil, h.there hm]
        dsimp only
        rw [List.append_assoc, List.take_append_drop]
  · intro ha
    have hm : a ∉ σ.cvars.list := fun hm => ha (cvar_stays hs hn hm)
    obtain ⟨hent, hsig⟩ := h.before hm
    rw [entered_append, signalled_append, entered_single, signalled_single, hent, hsig]
    exact ⟨enters_of_not_mem hm, signals_of_not_mem hm⟩

/-! ## A process in its CvarWait -/

/-- In this move `p` begins to wait for the cvar at `a`, with the lock id `x`. -/
def Begins (a : ℕ) (x : Int) (p : Pid) (m : Move Kernel Label) : Prop :=
  m.before.activeProc = some p ∧ m.before.cvarNamed m.label .cvarWait = some a ∧
    m.label.arg 1 = x ∧ m.before.outcome m.label = some .switched

/-- In this move `p` calls the kernel. -/
def Calls (p : Pid) (m : Move Kernel Label) : Prop :=
  m.before.activeProc = some p ∧ m.label.call ≠ none

/-- Process `p` has been left in a CvarWait on the cvar id `c` with the lock id `x`: in the
waiting list of the cvar, or in that of the lock. -/
def InCvarWait (σ : Kernel) (p : Pid) (c x : Int) : Prop :=
  (∃ a, (σ.pcb p).kctxt = .cvarWait a c x) ∨ ∃ d e, (σ.pcb p).kctxt = .acquire (some c) d x e

theorem InCvarWait.ne {c : Int} (h : σ.InCvarWait p c x) : (σ.pcb p).kctxt ≠ .kernelStart := by
  rcases h with ⟨a, hk⟩ | ⟨d, e, hk⟩ <;> simp [hk]

/-- A process in a CvarWait has not called the kernel since it began. -/
def Began (tr : List (Move Kernel Label)) (σ : Kernel) : Prop :=
  ∀ p ∈ σ.live, ¬σ.inUser p → ∀ c x, σ.InCvarWait p c x →
    ∃ a, σ.cvars.find? (fun y => y.cvarid = c) = some a ∧
      Since (Begins a x p) (fun m => ¬Calls p m) tr

/-- Where a step leaves its process in a CvarWait: it has just begun, or it goes on. -/
theorem left_inCvarWait {c : Int} (hinv : σ.Placed) (hsaved : σ.Saved) (hids : σ.Ids)
    (hs : Steps σ l σ') (ha : σ.Allocates l σ') (hi : σ.IdlePauses l)
    (hp : σ.activeProc = some p) (hu : ¬σ'.inUser p) (hleft : σ.leftAt l p (σ'.pcb p).kctxt)
    (hin : σ'.InCvarWait p c x) :
    (∃ a, σ.cvars.find? (fun y => y.cvarid = c) = some a ∧ Begins a x p ⟨σ, l, σ'⟩) ∨
      l.event = .resume ∧ σ.InCvarWait p c x := by
  rcases hin with ⟨a, hk⟩ | ⟨d, e, hk⟩
  · obtain ⟨hc, rfl, rfl, hfind, -⟩ := left_cvarWait hinv hids hs ha hi hp hu (hk ▸ hleft) hk
    refine .inl ⟨a, hfind, hp, (if_pos hc).trans hfind, rfl, ?_⟩
    obtain ⟨u, hl, hv, hcall⟩ := hs.blocked_call hc (by simp) hp hu
    have hdecode : Call.decode u.code = some .cvarWait := by
      simpa [Label.call, hl, hv] using hc
    exact outcome_call hl hv hp hdecode hcall
  · rw [hk] at hleft
    rcases hleft with ⟨c', hc, hplace⟩ | ⟨-, hplace⟩ | ⟨hl, hplace⟩
    · -- a call that blocks is no Acquire for a CvarWait
      have hblocked := fun hne => hs.blocked_call hc hne hp hu
      cases c' with
      | lockAcquire =>
          obtain ⟨u, hl, hv, hcall⟩ := hblocked (by simp)
          have hcalling := hinv.calling (enter_touches σ l u) ha.begin hp
            (hi.ne hl hp (by simp [hv]))
          have hcall' : ((σ.begin l).enter u).sysAcquire p none 0 = some (.switched, σ') := hcall
          obtain ⟨d', y, -, -, hk'⟩ := sysAcquire_blocks hcalling hcall'
          exact absurd (hk.symm.trans hk') (by simp)
      | cvarWait =>
          obtain ⟨u, hl, hv, hcall⟩ := hblocked (by simp)
          have hcalling := hinv.calling (enter_touches σ l u) ha.begin hp
            (hi.ne hl hp (by simp [hv]))
          rcases sysCvarWait_cases hcalling hcall with ⟨ho, -⟩ | ⟨_, _, -, -, -, -, hk', -⟩
          · exact absurd ho (by simp)
          · exact absurd (hk.symm.trans hk') (by simp)
      | _ => simp [blockPlaces] at hplace
    · simp at hplace
    · refine .inr ⟨hl, ?_⟩
      have hcall := hs.blocked_resume hl hp hu
      cases hkp : (σ.pcb p).kctxt with
      | acquire via d' y e' =>
          rw [hkp] at hplace
          obtain ⟨e'', hplace⟩ := hplace
          obtain ⟨rfl, rfl, rfl, -⟩ := KernelContext.acquire.inj hplace
          exact .inr ⟨d, e', hkp⟩
      | cvarWait a c' y =>
          obtain ⟨r, -, -, hm, -⟩ := hs.of_resume hl
          have hpos := hsaved.positive hinv hp hm a c' y hkp
          rw [hkp] at hcall
          change ((σ.begin l).restore p).sysCvarWaitResume p c' y = _ at hcall
          unfold sysCvarWaitResume at hcall
          split at hcall
          · obtain ⟨d', z, hz, -, hk'⟩ :=
              sysAcquire_blocks (hinv.continuing ha hp (by simp [hkp])) hcall
            obtain ⟨hc, rfl, rfl, -⟩ := KernelContext.acquire.inj (hk.symm.trans hk')
            obtain rfl := Option.some.inj hc
            rw [if_neg hpos.ne'] at hz
            exact .inl ⟨a, hz ▸ hkp⟩
          · exact absurd hcall (by simp)
      | _ =>
          rw [hkp] at hplace
          simp [blocksAgain] at hplace

theorem Began.step (h : Began tr σ) (hinv : σ.Placed) (hst : σ.Stacked) (hsaved : σ.Saved)
    (hids : σ.Ids) (hs : Steps σ l σ') (ha : σ.Allocates l σ') (hi : σ.IdlePauses l)
    (hn : NoReclaim l) : Began (tr ++ [⟨σ, l, σ'⟩]) σ' := by
  intro p hp hu c x hin
  have hkeeps : ∀ {a}, σ.cvars.find? (fun y => y.cvarid = c) = some a →
      σ'.cvars.find? (fun y => y.cvarid = c) = some a := (id_step hs).2.find?_of_some hn
  rcases hst.left hinv hs ha hi hp hu hin.ne with ⟨hact, hleft, -⟩ | ⟨hact, hlive, hkctxt, -⟩
  · rcases left_inCvarWait hinv hsaved hids hs ha hi hact hu hleft hin with
      ⟨a, hfind, hbegins⟩ | ⟨hl, hin⟩
    · exact ⟨a, hkeeps hfind, since_snoc.2 (.inl hbegins)⟩
    · obtain ⟨r, -, -, hm, -⟩ := hs.of_resume hl
      obtain ⟨a, hfind, hsince⟩ := h p (hinv.live_of_active hact)
        (fun hin => absurd (hin.2.symm.trans hm) (by simp)) c x hin
      refine ⟨a, hkeeps hfind, since_snoc.2 (.inr ⟨hsince, fun hc => hc.2 ?_⟩)⟩
      simp [Label.call, hl]
  · have hin' : σ.InCvarWait p c x := by
      unfold InCvarWait at hin ⊢
      rwa [hkctxt] at hin
    obtain ⟨a, hfind, hsince⟩ := h p hlive (fun hin => hact hin.1) c x hin'
    exact ⟨a, hkeeps hfind, since_snoc.2 (.inr ⟨hsince, fun hc => hact hc.1⟩)⟩

/-! ## The law of monitors -/

/-- What holds in every run in which nothing is reclaimed. -/
theorem monitor_of_run (hok : ∀ a ∈ b.procMallocs, a.ok = true) (h₀ : kernelStart b = some σ₀)
    (h : Run Kernel.step Keeps σ₀ tr σ) : (∀ a, Passed tr σ a) ∧ Began tr σ := by
  have hb := kernelStart_booted h₀
  induction h with
  | start =>
      refine ⟨fun a => ⟨fun ha => ?_, fun _ => ⟨rfl, rfl⟩⟩, fun p _ _ c x hin => ?_⟩
      · rw [hb.cvars] at ha
        exact absurd ha (by simp)
      · exact absurd (hb.kctxt p) hin.ne
  | @snoc tr σ σ' l hr hs hc ih =>
      obtain ⟨-, hsaved, hids, hinv, hst⟩ := exclusive_of_run hok h₀ hr
      obtain ⟨⟨ha, hi⟩, hn⟩ := hc
      have hs := step_cases hs
      exact ⟨fun a => (ih.1 a).step hinv hids hs ha hi hn,
        ih.2.step hinv hst hsaved hids hs ha hi hn⟩

/-- A process that runs does not wait for a cvar. -/
theorem Placed.cvar_waiter (hinv : σ.Placed) (ha : a ∈ σ.cvars.list)
    (hp : σ.activeProc = some p) : (σ.cvars.cell a).cvarWaitList.count p = 0 := by
  have hle := hinv.occ_le p
  have hone := List.nodup_iff_count_le_one.1 hinv.nodup p
  have hsum := Table.le_sum ha fun x => x.cvarWaitList.count p
  unfold occ queued blocked at hle
  rw [if_pos hp] at hle
  omega

/-- A process that runs has been moved as often as it has entered. -/
theorem Passed.balance (h : Passed tr σ a) (hinv : σ.Placed) (hp : σ.activeProc = some p) :
    (entered a tr).count p = (signalled a tr).count p := by
  by_cases ha : a ∈ σ.cvars.list
  · rw [h.there ha, List.count_append, hinv.cvar_waiter ha hp, add_zero]
  · obtain ⟨hent, hsig⟩ := h.before ha
    rw [hent, hsig]

/-- A process that does not call the kernel does not enter. -/
theorem count_entered_of_silent (a : ℕ) {tr : List (Move Kernel Label)}
    (h : ∀ m ∈ tr, ¬Calls p m) : (entered a tr).count p = 0 := by
  rw [List.count_eq_zero]
  intro hp
  obtain ⟨m, hm, hent⟩ := List.mem_flatMap.1 hp
  unfold enters at hent
  split at hent
  · rename_i hc
    refine h m hm ⟨by simpa using hent, fun hnone => ?_⟩
    have hcall := hc.1
    rw [cvarNamed, hnone, if_neg (by simp)] at hcall
    exact absurd hcall (by simp)
  · exact absurd hent (by simp)

/-- A process that runs in the middle of a CvarWait has been moved once since it began. -/
theorem moved_once (hok : ∀ a ∈ b.procMallocs, a.ok = true) (h₀ : kernelStart b = some σ₀)
    (h : Run Kernel.step Keeps σ₀ tr σ) (hp : σ.activeProc = some p)
    (hsince : Since (Begins a x p) (fun m => ¬Calls p m) tr) :
    ∃ tr₁ m tr₂, tr = tr₁ ++ m :: tr₂ ∧ Begins a x p m ∧ (∀ m' ∈ tr₂, ¬Calls p m') ∧
      (signalled a tr₂).count p = 1 := by
  obtain ⟨tr₁, m, tr₂, htr, hbegins, hsilent⟩ := hsince
  refine ⟨tr₁, m, tr₂, htr, hbegins, hsilent, ?_⟩
  obtain ⟨hr₁, -, -⟩ := h.upTo htr
  have hbefore := ((monitor_of_run hok h₀ hr₁).1 a).balance
    (exclusive_of_run hok h₀ hr₁).2.2.2.1 hbegins.1
  have hafter := ((monitor_of_run hok h₀ h).1 a).balance (exclusive_of_run hok h₀ h).2.2.2.1 hp
  have hent : m.before.enters m.label a = [p] := by
    rw [enters, if_pos ⟨hbegins.2.1, hbegins.2.2.2⟩, hbegins.1]
    rfl
  have hsig : m.before.signals m.label a = [] := by
    rw [signals, cvarNamed_unique hbegins.2.1 (by simp), cvarNamed_unique hbegins.2.1 (by simp)]
    simp
  have hsplit : tr = tr₁ ++ ([m] ++ tr₂) := htr
  rw [hsplit, entered_append, entered_append, signalled_append, signalled_append, entered_single,
    signalled_single, hent, hsig] at hafter
  simp only [List.count_append, count_entered_of_silent a hsilent, count_one, one_self,
    List.count_nil] at hafter
  omega

/-! ## One more step -/

/-- What the law says of a step after the moves `tr`. -/
structure MonitorStep (tr : List (Move Kernel Label)) (σ : Kernel) (l : Label) (σ' : Kernel) :
    Prop where
  /-- A CvarWait fails, or frees its lock and queues up in this one step. -/
  waits : ∀ a p, σ.activeProc = some p → σ.cvarNamed l .cvarWait = some a →
    σ.outcome l = some (.ret error) ∨ σ.outcome l = some .switched ∧
      (∃ d, σ.locks.find? (fun x => x.lockid = l.arg 1 ∧ x.pid = p ∧ x.locked = true) = some d ∧
        (σ'.locks.cell d).locked = false) ∧
      σ'.cvars.cell a = { σ.cvars.cell a with
        cvarWaitList := (σ.cvars.cell a).cvarWaitList ++ [p] }
  /-- A CvarSignal moves the first process that waits and a CvarBroadcast all of them to the
  end of `ready_queue`, with one `malloc` for each, and they change nothing else. -/
  wakes : ∀ a n, (σ.cvarNamed l .cvarSignal = some a ∧ n = 1 ∨
      σ.cvarNamed l .cvarBroadcast = some a ∧ n = (σ.cvars.cell a).cvarWaitList.length) →
    ∃ u, l.event = .trap u ∧ σ' = finish (.ret 0, ((σ.begin l).enter u).wakeWaiters a n)
  /-- A process that returns from its CvarWait has been moved once since it began, and is now
  the only holder of the lock that it named. -/
  returns : ∀ p c x, σ.activeProc = some p → l.event = .resume → σ.InCvarWait p c x →
    σ.outcome l = some (.ret 0) → (∀ q, Holds x q (tr ++ [⟨σ, l, σ'⟩]) ↔ q = p) ∧
      ∃ a tr₁ m tr₂, σ.cvars.find? (fun y => y.cvarid = c) = some a ∧ tr = tr₁ ++ m :: tr₂ ∧
        Begins a x p m ∧ (∀ m' ∈ tr₂, ¬Calls p m') ∧ (signalled a tr₂).count p = 1

theorem cvarWait_step (hinv : σ.Placed) (hids : σ.Ids) (hs : Steps σ l σ')
    (hal : σ.Allocates l σ') (hi : σ.IdlePauses l) (hn : NoReclaim l)
    (hp : σ.activeProc = some p) (hw : σ.cvarNamed l .cvarWait = some a) :
    σ.outcome l = some (.ret error) ∨ σ.outcome l = some .switched ∧
      (∃ d, σ.locks.find? (fun x => x.lockid = l.arg 1 ∧ x.pid = p ∧ x.locked = true) = some d ∧
        (σ'.locks.cell d).locked = false) ∧
      σ'.cvars.cell a = { σ.cvars.cell a with
        cvarWaitList := (σ.cvars.cell a).cvarWaitList ++ [p] } := by
  have ha := cvar_stays hs hn (mem_of_cvarNamed hw)
  cases cvar_step hinv hids hs hal hi ha with
  | same _ _ herr _ _ => exact .inl (herr hw)
  | fresh hm => exact absurd (mem_of_cvarNamed hw) hm
  | @waits r _ hr _ ho _ hlock hcell =>
      obtain rfl := Option.some.inj (hp.symm.trans hr)
      exact .inr ⟨ho, hlock, hcell⟩
  | woken _ hcall =>
      rcases hcall with ⟨hc, -⟩ | ⟨hc, -⟩
      · exact absurd ((cvarNamed_unique hc (by simp)).symm.trans hw) (by simp)
      · exact absurd ((cvarNamed_unique hc (by simp)).symm.trans hw) (by simp)

/-- A call on a cvar that exists. -/
theorem cvarNamed_call {c : Call} (hids : σ.Ids) (hs : Steps σ l σ')
    (hc : σ.cvarNamed l c = some a) : ∃ u p o τ, l.event = .trap u ∧
      ((σ.begin l).enter u).sysCall p c = some (o, τ) ∧ σ' = finish (o, τ) ∧
        0 ≤ (u.regs 0).toInt ∧ σ.cvars.find? (fun y => y.cvarid = (u.regs 0).toInt) = some a := by
  unfold cvarNamed at hc
  split at hc
  · rename_i hlc
    obtain ⟨u, p, o, τ, hl, -, -, hcall, hσ', -⟩ := hs.of_call hlc
    have harg : l.arg 0 = (u.regs 0).toInt := by simp [Label.arg, hl]
    rw [harg] at hc
    have hid := Table.prop_of_find? hc
    refine ⟨u, p, o, τ, hl, hcall, hσ', ?_, hc⟩
    rw [← of_decide_eq_true hid]
    exact (hids.cvars _ (Table.mem_of_find? hc)).le
  · exact absurd hc (by simp)

theorem cvarSignal_step {n : ℕ} (hids : σ.Ids) (hs : Steps σ l σ') (hal : σ.Allocates l σ')
    (hcall : σ.cvarNamed l .cvarSignal = some a ∧ n = 1 ∨
      σ.cvarNamed l .cvarBroadcast = some a ∧ n = (σ.cvars.cell a).cvarWaitList.length) :
    ∃ u, l.event = .trap u ∧
      σ' = finish (.ret 0, ((σ.begin l).enter u).wakeWaiters a n) := by
  rcases hcall with ⟨hc, rfl⟩ | ⟨hc, rfl⟩
  · obtain ⟨u, p, o, τ, hl, h, rfl, hpos, hfind⟩ := cvarNamed_call hids hs hc
    have hm := sysCvarSignal_ok (σ := (σ.begin l).enter u) (p := p) hal.begin hpos hfind
    obtain ⟨rfl, rfl⟩ := Prod.mk.inj (Option.some.inj (hm.symm.trans h))
    exact ⟨u, hl, rfl⟩
  · obtain ⟨u, p, o, τ, hl, h, rfl, hpos, hfind⟩ := cvarNamed_call hids hs hc
    have hm := sysCvarBroadcast_ok (σ := (σ.begin l).enter u) (p := p) hal.begin hpos hfind
    obtain ⟨rfl, rfl⟩ := Prod.mk.inj (Option.some.inj (hm.symm.trans h))
    exact ⟨u, hl, rfl⟩

/-- A CvarWait that returns 0 ends with the Acquire on the lock that it named. -/
theorem InCvarWait.gains {c : Int} (hin : σ.InCvarWait p c x) (hinv : σ.Placed)
    (hsaved : σ.Saved) (hs : Steps σ l σ') (hl : l.event = .resume) (hp : σ.activeProc = some p)
    (ho : σ.outcome l = some (.ret 0)) : Gains x p ⟨σ, l, σ'⟩ := by
  refine ⟨hp, ho, ?_⟩
  rcases hin with ⟨a, hk⟩ | ⟨d, e, hk⟩
  · obtain ⟨r, o, τ, hm, hr, hcall, -, ho'⟩ := hs.of_resume hl
    obtain rfl := Option.some.inj (hp.symm.trans hr)
    obtain rfl := Option.some.inj (ho'.symm.trans ho)
    have hpos := hsaved.positive hinv hp hm a c x hk
    rw [hk] at hcall
    change ((σ.begin l).restore p).sysCvarWaitResume p c x = _ at hcall
    unfold sysCvarWaitResume at hcall
    split at hcall
    · obtain ⟨b, y, rfl, hfind, -⟩ := sysAcquire_returns hpos.le hcall
      rw [if_neg hpos.ne'] at hfind
      exact ⟨b, .after hl hk (fun _ => rfl) hfind⟩
    · exact absurd hcall (by simp [error])
  · exact ⟨d, .again hl hk⟩

/-- The law of monitors, in every run in which allocations succeed, idle only pauses and
nothing is reclaimed. -/
theorem run_monitor (hok : ∀ a ∈ b.procMallocs, a.ok = true) (h₀ : kernelStart b = some σ₀)
    (h : Run Kernel.step Keeps σ₀ tr σ) :
    (∀ a ∈ σ.cvars.list, entered a tr = signalled a tr ++ (σ.cvars.cell a).cvarWaitList) ∧
      ∀ l σ', σ.step l = some σ' → Keeps σ l σ' → MonitorStep tr σ l σ' := by
  obtain ⟨hexcl, hsaved, hids, hinv, -⟩ := exclusive_of_run hok h₀ h
  obtain ⟨hpassed, hbegan⟩ := monitor_of_run hok h₀ h
  refine ⟨fun a ha => (hpassed a).there ha, fun l σ' hstep hkeeps => ?_⟩
  have hs := step_cases hstep
  obtain ⟨⟨ha, hi⟩, hn⟩ := hkeeps
  constructor
  · exact fun a p hp hw => cvarWait_step hinv hids hs ha hi hn hp hw
  · exact fun a n hcall => cvarSignal_step hids hs ha hcall
  · intro p c x hp hl hin ho
    have hgains := hin.gains hinv hsaved hs hl hp ho
    have hexcl' := hexcl.step hsaved hinv hs ha hi hn
    have howns := hgains.owns hinv hsaved hs ha hi hn
    constructor
    · intro q
      rw [hexcl'.holder]
      constructor
      · exact fun hq => hq.unique howns
      · rintro rfl
        exact howns
    · obtain ⟨r, -, -, hm, -⟩ := hs.of_resume hl
      obtain ⟨a, hfind, hsince⟩ := hbegan p (hinv.live_of_active hp)
        (fun hu => absurd (hu.2.symm.trans hm) (by simp)) c x hin
      obtain ⟨tr₁, m, tr₂, hmoved⟩ := moved_once hok h₀ h hp hsince
      exact ⟨a, tr₁, m, tr₂, hfind, hmoved⟩

/-- The theorem on a run in which init returns from its CvarWait after the signal of its
child. -/
theorem run_monitor_child : ∃ σ₀ tr σ σ', kernelStart smallBoot = some σ₀ ∧
    Run Kernel.step Keeps σ₀ tr σ ∧
    ((σ.pcb 0).kctxt = .cvarWait 0 2 1 ∧ σ.activeProc = some 0 ∧
      σ.outcome resumption = some (.ret 0) ∧ σ'.activeProc = some 0) ∧
    entered 0 tr = signalled 0 tr ++ (σ.cvars.cell 0).cvarWaitList ∧
    MonitorStep tr σ resumption σ' := by
  obtain ⟨σ₀, tr, σ, σ', h₀, hr, hr', hmem, hP⟩ := bootExec_move (b := smallBoot) (C := Keeps)
    (P := fun σ σ' => 0 ∈ σ.cvars.list ∧ (σ.pcb 0).kctxt = .cvarWait 0 2 1 ∧
      σ.activeProc = some 0 ∧ σ.outcome resumption = some (.ret 0) ∧ σ'.activeProc = some 0)
    (t := [smallCall .lockInit vmem1Base 0 0, smallCall .cvarInit vmem1Base 0 0,
      smallCall .lockAcquire 1 0 0, smallCall .fork 0 0 0, smallCall .cvarWait 2 1 0, resumption,
      smallCall .cvarSignal 2 0 0, clockTick])
    (l := resumption)
    (by decide +kernel)
  obtain ⟨-, hstep, hkeeps, -⟩ := hr'.last
  obtain ⟨hlist, hmonitor⟩ := run_monitor (by simp [smallBoot]) h₀ hr
  exact ⟨σ₀, tr, σ, σ', h₀, hr, hP, hlist 0 hmem, hmonitor resumption σ' hstep hkeeps⟩

end Kernel

end Yalnix
