import Yalnix.Placement.Invariant

/-!
# The law of semaphores

The count of a semaphore is the number of increments less the number of waits made on
it. A wait sleeps when it makes the count negative, and an increment that leaves it
below 1 wakes the first sleeper, so the waiting list has as many processes as the count
is below 0.
-/

namespace Yalnix

open Transition

namespace Kernel

variable {σ σ' : Kernel} {l : Label} {p q : Pid} {o : Outcome} {a : ℕ}

/-! ## Calls on a semaphore -/

/-- The semaphore that the call `c` in step `l` is made on. -/
def semNamed (σ : Kernel) (l : Label) (c : Call) : Option ℕ :=
  match l.event with
  | .trap u =>
      if l.call = some c then σ.sems.find? fun s => s.id = (u.regs 0).toInt else none
  | _ => none

/-- The sem_inc calls made on the semaphore at `a`. -/
def incs (a : ℕ) (tr : List (Move Kernel Label)) : ℕ :=
  tr.countP fun m => m.before.semNamed m.label .custom1 = some a

/-- The sem_wait calls made on it. -/
def waits (a : ℕ) (tr : List (Move Kernel Label)) : ℕ :=
  tr.countP fun m => m.before.semNamed m.label .custom2 = some a

/-- The sem_wait calls on it that returned without sleeping. -/
def passes (a : ℕ) (tr : List (Move Kernel Label)) : ℕ :=
  tr.countP fun m => m.before.semNamed m.label .custom2 = some a ∧
    m.before.outcome m.label = some (.ret 0)

/-- The callers of sem_wait that it has put to sleep, in this order. -/
def sleepers (a : ℕ) (tr : List (Move Kernel Label)) : List Pid :=
  tr.flatMap fun m =>
    if m.before.semNamed m.label .custom2 = some a ∧ m.before.outcome m.label = some .switched
    then m.before.activeProc.toList else []

/-- The sleepers that sem_inc calls on it have made ready, in this order. -/
def released (a : ℕ) (tr : List (Move Kernel Label)) : List Pid :=
  tr.flatMap fun m =>
    if m.before.semNamed m.label .custom1 = some a
    then (m.before.sems.cell a).waiting.filter (· ∈ m.after.readyQueue) else []

/-- The things that a step can do to the semaphores. -/
inductive SemStep (σ σ' : Kernel) (l : Label) : Prop
  | same (hi : σ.semNamed l .custom1 = none) (hw : σ.semNamed l .custom2 = none)
      (hs : σ'.sems = σ.sems) (hn : σ'.nextSem = σ.nextSem)
  | fresh {hint : ℕ} (hi : σ.semNamed l .custom1 = none) (hw : σ.semNamed l .custom2 = none)
      (hs : σ'.sems = σ.sems.alloc hint ⟨σ.nextSem, 0, []⟩) (hn : σ'.nextSem = σ.nextSem + 1)
  | inc {b : ℕ} (hi : σ.semNamed l .custom1 = some b) (hw : σ.semNamed l .custom2 = none)
      (hwake : 0 < (σ.sems.cell b).count + 1 ∨ (σ.sems.cell b).waiting = [])
      (hs : σ'.sems = σ.sems.write b
        { σ.sems.cell b with count := (σ.sems.cell b).count + 1 })
      (hn : σ'.nextSem = σ.nextSem)
  | wake {b : ℕ} {q : Pid} {rest : List Pid} (hi : σ.semNamed l .custom1 = some b)
      (hw : σ.semNamed l .custom2 = none) (hneg : (σ.sems.cell b).count + 1 ≤ 0)
      (hcons : (σ.sems.cell b).waiting = q :: rest) (hready : q ∈ σ'.readyQueue)
      (hs : σ'.sems = σ.sems.write b
        { σ.sems.cell b with count := (σ.sems.cell b).count + 1, waiting := rest })
      (hn : σ'.nextSem = σ.nextSem)
  | pass {b : ℕ} (hi : σ.semNamed l .custom1 = none) (hw : σ.semNamed l .custom2 = some b)
      (ho : σ.outcome l = some (.ret 0)) (hpos : 0 ≤ (σ.sems.cell b).count - 1)
      (hs : σ'.sems = σ.sems.write b
        { σ.sems.cell b with count := (σ.sems.cell b).count - 1 })
      (hn : σ'.nextSem = σ.nextSem)
  | sleep {b : ℕ} {p : Pid} (hi : σ.semNamed l .custom1 = none)
      (hw : σ.semNamed l .custom2 = some b) (hp : σ.activeProc = some p)
      (ho : σ.outcome l = some .switched) (hneg : (σ.sems.cell b).count - 1 < 0)
      (hs : σ'.sems = σ.sems.write b { σ.sems.cell b with
        count := (σ.sems.cell b).count - 1, waiting := (σ.sems.cell b).waiting ++ [p] })
      (hn : σ'.nextSem = σ.nextSem)

/-! ## The parts of the calls -/

theorem sysCustom0_sems (hok : σ.mem.AllOk) (h : σ.sysCustom0 p = some (o, σ')) :
    ∃ hint, σ'.sems = σ.sems.alloc hint ⟨σ.nextSem, 0, []⟩ ∧ σ'.nextSem = σ.nextSem + 1 := by
  have htmp : σ.malloc.1.ok = true := hok.ok
  have hhead : (malloc { σ.malloc.2 with nextSem := σ.nextSem + 1 }).1.ok = true := hok.malloc.ok
  have hnode : (malloc { σ.malloc.2 with nextSem := σ.nextSem + 1 }).2.malloc.1.ok = true :=
    hok.malloc.malloc.ok
  unfold sysCustom0 at h
  dsimp only at h
  split at h
  · rename_i hbad
    exact absurd (htmp.symm.trans hbad) (by simp)
  split at h
  · rename_i hbad
    exact absurd (hhead.symm.trans hbad) (by simp)
  obtain ⟨-, rfl⟩ := Prod.mk.inj (Option.some.inj h)
  exact ⟨_, rfl, rfl⟩

/-- A sem_inc. -/
theorem sysCustom1_sems (hok : σ.mem.AllOk) (h : σ.sysCustom1 p = some (o, σ')) :
    ∃ a, σ.sems.find? (fun s => s.id = (σ.reg 0).toInt) = some a ∧ σ'.nextSem = σ.nextSem ∧
      (((0 < (σ.sems.cell a).count + 1 ∨ (σ.sems.cell a).waiting = []) ∧
          σ'.sems = σ.sems.write a
            { σ.sems.cell a with count := (σ.sems.cell a).count + 1 }) ∨
        ((σ.sems.cell a).count + 1 ≤ 0 ∧ ∃ q rest, (σ.sems.cell a).waiting = q :: rest ∧
          q ∈ σ'.readyQueue ∧ σ'.sems = σ.sems.write a
            { σ.sems.cell a with count := (σ.sems.cell a).count + 1, waiting := rest })) := by
  unfold sysCustom1 at h
  obtain ⟨a, hfind, h⟩ := Option.map_eq_some_iff.1 h
  refine ⟨a, hfind, ?_⟩
  dsimp only at h
  by_cases hneg : (σ.sems.cell a).count + 1 ≤ 0
  · rw [if_pos hneg] at h
    cases hl : (σ.sems.cell a).waiting with
    | nil =>
        rw [hl, listRemove_nil] at h
        obtain ⟨-, rfl⟩ := Prod.mk.inj h
        refine ⟨rfl, .inl ⟨.inr rfl, ?_⟩⟩
        dsimp only
        rw [hl]
    | cons q rest =>
        rw [hl, listRemove_cons_one] at h
        obtain ⟨-, rfl⟩ := Prod.mk.inj h
        refine ⟨rfl, .inr ⟨hneg, q, rest, rfl, ?_, rfl⟩⟩
        rw [readyInsert_ok (by exact hok)]
        simp
  · rw [if_neg hneg] at h
    obtain ⟨-, rfl⟩ := Prod.mk.inj h
    exact ⟨rfl, .inl ⟨.inl (by omega), rfl⟩⟩

/-- A sem_wait. -/
theorem sysCustom2_sems (hcall : σ.Calling p) (h : σ.sysCustom2 p = some (o, σ')) :
    ∃ a, σ.sems.find? (fun s => s.id = (σ.reg 0).toInt) = some a ∧ σ'.nextSem = σ.nextSem ∧
      ((0 ≤ (σ.sems.cell a).count - 1 ∧ o = .ret 0 ∧ σ'.sems = σ.sems.write a
          { σ.sems.cell a with count := (σ.sems.cell a).count - 1 }) ∨
        ((σ.sems.cell a).count - 1 < 0 ∧ o = .switched ∧ σ'.sems = σ.sems.write a
          { σ.sems.cell a with
            count := (σ.sems.cell a).count - 1, waiting := (σ.sems.cell a).waiting ++ [p] })) := by
  unfold sysCustom2 at h
  obtain ⟨a, hfind, h⟩ := Option.bind_eq_some_iff.1 h
  have ha := Table.mem_of_find? hfind
  refine ⟨a, hfind, ?_⟩
  have hsem := Requeues.writeSem (a := a)
    (x := { σ.sems.cell a with count := (σ.sems.cell a).count - 1 }) hcall.ok rfl
  dsimp only at h
  split at h
  · rename_i hneg
    obtain ⟨rfl, htouch, -⟩ :=
      (hcall.requeued hsem).sleeps (.semWaitInsert hsem.ok (by exact ha) p) h
    obtain ⟨hsems, hnext⟩ := htouch.same .sems (by simp)
    rw [semWaitInsert_ok hsem.ok] at hsems hnext
    refine ⟨hnext, .inr ⟨hneg, rfl, ?_⟩⟩
    rw [hsems]
    dsimp only
    rw [Table.cell_write_self ha, Table.write_write]
  · rename_i hpos
    obtain ⟨rfl, rfl⟩ := Prod.mk.inj (Option.some.inj h)
    exact ⟨rfl, .inl ⟨by omega, rfl, rfl⟩⟩

/-! ## A whole step -/

theorem semNamed_of_call {u : UserContext} {c : Call} (hl : l.event = .trap u)
    (hc : l.call = some c) (c' : Call) : σ.semNamed l c' =
      if c = c' then σ.sems.find? fun s => s.id = (u.regs 0).toInt else none := by
  simp [semNamed, hl, hc]

/-- A step that makes neither sem_inc nor sem_wait is made on no semaphore. -/
theorem semNamed_eq_none {c : Call} (hc : l.call ≠ some c) : σ.semNamed l c = none := by
  unfold semNamed
  split
  · exact if_neg hc
  · rfl

theorem mem_of_semNamed {c : Call} (h : σ.semNamed l c = some a) : a ∈ σ.sems.list := by
  unfold semNamed at h
  split at h
  · split at h
    · exact Table.mem_of_find? h
    · exact absurd h (by simp)
  · exact absurd h (by simp)

theorem SemStep.of_same (hi : l.call ≠ some .custom1) (hw : l.call ≠ some .custom2)
    (h : View.sems.Same σ σ') : SemStep σ σ' l :=
  .same (semNamed_eq_none hi) (semNamed_eq_none hw) h.1 h.2

theorem finish_sems (o : Outcome) (τ : Kernel) : View.sems.Same τ (finish (o, τ)) :=
  (finish_touches o τ).same .sems (by simp)

/-- What one step does to the semaphores. -/
theorem sem_step (hinv : σ.Placed) (h : Steps σ l σ') (hal : σ.Allocates l σ')
    (hi : σ.IdlePauses l) : SemStep σ σ' l := by
  have hs := h
  cases h with
  | @call u p c o τ hl hu hv hp hc h =>
      have hne : p ≠ idle := hi.ne hl hp (by simp [hv])
      have hcall := hinv.calling (enter_touches σ l u) hal.begin hp hne
      have hlc : l.call = some c := by simp [Label.call, hl, hv, hc]
      obtain ⟨hsems, hnext⟩ := finish_sems o τ
      have hnamed := semNamed_of_call (σ := σ) hl hlc
      by_cases h₀ : c = .custom0
      · subst h₀
        obtain ⟨hint, halloc, hsucc⟩ := sysCustom0_sems (p := p) hcall.ok h
        exact .fresh (hnamed _) (hnamed _) (hsems.trans halloc) (hnext.trans hsucc)
      by_cases h₁ : c = .custom1
      · subst h₁
        obtain ⟨b, hfind, hsucc, ⟨hwake, hwrite⟩ | ⟨hneg, q, rest, hcons, hready, hwrite⟩⟩ :=
          sysCustom1_sems (p := p) hcall.ok h
        · exact .inc ((hnamed _).trans hfind) (hnamed _) hwake (hsems.trans hwrite)
            (hnext.trans hsucc)
        · refine .wake ((hnamed _).trans hfind) (hnamed _) hneg hcons ?_ (hsems.trans hwrite)
            (hnext.trans hsucc)
          rw [((finish_touches o τ).same .queues (by simp)).2.1]
          exact hready
      by_cases h₂ : c = .custom2
      · subst h₂
        have ho := outcome_call hl hv hp hc h
        obtain ⟨b, hfind, hsucc, ⟨hpos, rfl, hwrite⟩ | ⟨hneg, rfl, hwrite⟩⟩ :=
          sysCustom2_sems hcall h
        · exact .pass (hnamed _) ((hnamed _).trans hfind) ho hpos (hsems.trans hwrite)
            (hnext.trans hsucc)
        · exact .sleep (hnamed _) ((hnamed _).trans hfind) hp ho hneg (hsems.trans hwrite)
            (hnext.trans hsucc)
      · refine .of_same (by simpa [hlc] using h₁) (by simpa [hlc] using h₂)
          (((enter_touches σ l u).same .sems (by simp)).trans
            (((sysCall_touches h).same .sems ?_).trans (finish_sems o τ)))
        cases c <;> simp [callViews] at h₀ h₁ h₂ ⊢
  | @resume p o τ hl hu hp h =>
      have hnone : l.call = none := by simp [Label.call, hl]
      refine .of_same (by simp [hnone]) (by simp [hnone])
        (((restore_touches σ l p).same .sems (by simp)).trans
          (((resumeCall_touches h).same .sems ?_).trans (finish_sems o τ)))
      cases (σ.pcb p).kctxt <;> simp [resumeViews]
  | _ =>
      have hnone : l.call = none := by simp_all [Label.call]
      exact .of_same (by simp [hnone]) (by simp [hnone]) (hs.quiet hnone (by simp_all) (by simp))

/-! ## The invariant -/

section Snoc

variable (a : ℕ) (tr : List (Move Kernel Label)) (m : Move Kernel Label)

theorem incs_snoc : incs a (tr ++ [m]) =
    incs a tr + if m.before.semNamed m.label .custom1 = some a then 1 else 0 := by
  simp [incs, List.countP_append, List.countP_singleton]

theorem waits_snoc : waits a (tr ++ [m]) =
    waits a tr + if m.before.semNamed m.label .custom2 = some a then 1 else 0 := by
  simp [waits, List.countP_append, List.countP_singleton]

theorem passes_snoc : passes a (tr ++ [m]) =
    passes a tr + if m.before.semNamed m.label .custom2 = some a ∧
      m.before.outcome m.label = some (.ret 0) then 1 else 0 := by
  simp [passes, List.countP_append, List.countP_singleton]

theorem sleepers_snoc : sleepers a (tr ++ [m]) =
    sleepers a tr ++ if m.before.semNamed m.label .custom2 = some a ∧
      m.before.outcome m.label = some .switched then m.before.activeProc.toList else [] := by
  simp [sleepers]

theorem released_snoc : released a (tr ++ [m]) =
    released a tr ++ if m.before.semNamed m.label .custom1 = some a
      then (m.before.sems.cell a).waiting.filter (· ∈ m.after.readyQueue) else [] := by
  simp [released]

end Snoc

/-- The calls made on the semaphore at `a`, of which `n` is the count and `w` the
waiting list. One that is still to be created counts 0. -/
structure SemCounts (a : ℕ) (tr : List (Move Kernel Label)) (n : Int) (w : List Pid) :
    Prop where
  count : n = incs a tr - waits a tr
  length : w.length = (-n).toNat
  order : sleepers a tr = released a tr ++ w
  calls : waits a tr = passes a tr + (sleepers a tr).length

namespace SemCounts

variable {tr : List (Move Kernel Label)} {m : Move Kernel Label} {n : Int} {w : List Pid}

/-- A move that is made on another semaphore, or on none. -/
theorem other (h : SemCounts a tr n w) (hi : m.before.semNamed m.label .custom1 ≠ some a)
    (hw : m.before.semNamed m.label .custom2 ≠ some a) : SemCounts a (tr ++ [m]) n w := by
  obtain ⟨hcount, hlength, horder, hcalls⟩ := h
  constructor
  · rw [incs_snoc, waits_snoc, if_neg hi, if_neg hw]
    exact hcount
  · exact hlength
  · rw [sleepers_snoc, released_snoc, if_neg hi, if_neg fun h => hw h.1]
    simpa using horder
  · rw [waits_snoc, passes_snoc, sleepers_snoc, if_neg hw, if_neg fun h => hw h.1,
      if_neg fun h => hw h.1]
    simpa using hcalls

/-- A sem_inc, which makes the processes `ps` at the head of the waiting list ready. -/
theorem inc {s rest : List Pid} (h : SemCounts a tr n w)
    (hi : m.before.semNamed m.label .custom1 = some a)
    (hw : m.before.semNamed m.label .custom2 ≠ some a)
    (hps : (m.before.sems.cell a).waiting.filter (· ∈ m.after.readyQueue) = s)
    (hrest : w = s ++ rest) (hlen : rest.length = (-(n + 1)).toNat) :
    SemCounts a (tr ++ [m]) (n + 1) rest := by
  obtain ⟨hcount, hlength, horder, hcalls⟩ := h
  constructor
  · rw [incs_snoc, waits_snoc, if_pos hi, if_neg hw, hcount]
    push_cast
    omega
  · exact hlen
  · rw [sleepers_snoc, released_snoc, if_pos hi, if_neg fun h => hw h.1, hps, horder, hrest]
    simp
  · rw [waits_snoc, passes_snoc, sleepers_snoc, if_neg hw, if_neg fun h => hw h.1,
      if_neg fun h => hw h.1]
    simpa using hcalls

/-- A sem_wait that returns at once. -/
theorem pass (h : SemCounts a tr n w) (hi : m.before.semNamed m.label .custom1 ≠ some a)
    (hw : m.before.semNamed m.label .custom2 = some a)
    (ho : m.before.outcome m.label = some (.ret 0)) (hpos : 0 ≤ n - 1) :
    SemCounts a (tr ++ [m]) (n - 1) w := by
  obtain ⟨hcount, hlength, horder, hcalls⟩ := h
  have hsleep : ¬(m.before.semNamed m.label .custom2 = some a ∧
      m.before.outcome m.label = some .switched) := by simp [ho]
  constructor
  · rw [incs_snoc, waits_snoc, if_neg hi, if_pos hw, hcount]
    push_cast
    omega
  · omega
  · rw [sleepers_snoc, released_snoc, if_neg hi, if_neg hsleep]
    simpa using horder
  · rw [waits_snoc, passes_snoc, sleepers_snoc, if_pos hw, if_pos ⟨hw, ho⟩, if_neg hsleep,
      List.append_nil]
    omega

/-- A sem_wait that puts its caller to sleep. -/
theorem sleep (h : SemCounts a tr n w) (hi : m.before.semNamed m.label .custom1 ≠ some a)
    (hw : m.before.semNamed m.label .custom2 = some a) (hp : m.before.activeProc = some p)
    (ho : m.before.outcome m.label = some .switched) (hneg : n - 1 < 0) :
    SemCounts a (tr ++ [m]) (n - 1) (w ++ [p]) := by
  obtain ⟨hcount, hlength, horder, hcalls⟩ := h
  have hpass : ¬(m.before.semNamed m.label .custom2 = some a ∧
      m.before.outcome m.label = some (.ret 0)) := by simp [ho]
  constructor
  · rw [incs_snoc, waits_snoc, if_neg hi, if_pos hw, hcount]
    push_cast
    omega
  · rw [List.length_append, List.length_singleton]
    omega
  · rw [sleepers_snoc, released_snoc, if_neg hi, if_pos ⟨hw, ho⟩, hp, horder]
    simp
  · rw [waits_snoc, passes_snoc, sleepers_snoc, if_pos hw, if_neg hpass, if_pos ⟨hw, ho⟩, hp,
      List.length_append, hcalls]
    simp [add_assoc]

end SemCounts

/-- The law for all semaphores, and that their ids are different. -/
structure SemLaw (tr : List (Move Kernel Label)) (σ : Kernel) : Prop where
  law : ∀ a ∈ σ.sems.list, SemCounts a tr (σ.sems.cell a).count (σ.sems.cell a).waiting
  unused : ∀ a, a ∉ σ.sems.list → SemCounts a tr 0 []
  bound : ∀ a ∈ σ.sems.list, (σ.sems.cell a).id < σ.nextSem
  inj : ∀ a ∈ σ.sems.list, ∀ b ∈ σ.sems.list, (σ.sems.cell a).id = (σ.sems.cell b).id → a = b

namespace SemLaw

variable {tr tr' : List (Move Kernel Label)} {b : ℕ} {y : Semaphore}

theorem write (h : SemLaw tr σ) (hb : b ∈ σ.sems.list) (hs : σ'.sems = σ.sems.write b y)
    (hn : σ'.nextSem = σ.nextSem) (hid : y.id = (σ.sems.cell b).id)
    (hself : SemCounts b tr' y.count y.waiting)
    (hother : ∀ a, a ≠ b → ∀ n w, SemCounts a tr n w → SemCounts a tr' n w) :
    SemLaw tr' σ' := by
  have hids : ∀ a, (σ'.sems.cell a).id = (σ.sems.cell a).id := by
    rw [hs]
    exact Table.cell_write_congr Semaphore.id hid
  have hlist : σ'.sems.list = σ.sems.list := by rw [hs, Table.list_write]
  constructor
  · intro a ha
    rw [hlist] at ha
    by_cases hab : a = b
    · subst hab
      rw [hs, Table.cell_write_self ha]
      exact hself
    · rw [hs, Table.cell_write_of_ne hab]
      exact hother a hab _ _ (h.law a ha)
  · intro a ha
    rw [hlist] at ha
    exact hother a (fun hab => ha (hab ▸ hb)) _ _ (h.unused a ha)
  · intro a ha
    rw [hlist] at ha
    rw [hids, hn]
    exact h.bound a ha
  · intro a ha c hc
    rw [hlist] at ha hc
    rw [hids, hids]
    exact h.inj a ha c hc

theorem step (h : SemLaw tr σ) (hinv' : σ'.Placed) (hs : SemStep σ σ' l) :
    SemLaw (tr ++ [⟨σ, l, σ'⟩]) σ' := by
  cases hs with
  | same hi hw hsems hn =>
      have hkeep : ∀ a n w, SemCounts a tr n w → SemCounts a (tr ++ [⟨σ, l, σ'⟩]) n w :=
        fun a n w hc => hc.other (by simp [hi]) (by simp [hw])
      constructor
      · intro a ha
        rw [hsems] at ha ⊢
        exact hkeep a _ _ (h.law a ha)
      · intro a ha
        rw [hsems] at ha
        exact hkeep a _ _ (h.unused a ha)
      · intro a ha
        rw [hsems] at ha ⊢
        rw [hn]
        exact h.bound a ha
      · intro a ha c hc
        rw [hsems] at ha hc ⊢
        exact h.inj a ha c hc
  | @fresh hint hi hw hsems hn =>
      have hkeep : ∀ a n w, SemCounts a tr n w → SemCounts a (tr ++ [⟨σ, l, σ'⟩]) n w :=
        fun a n w hc => hc.other (by simp [hi]) (by simp [hw])
      have hself := Table.cell_alloc_self σ.sems hint ⟨σ.nextSem, 0, []⟩
      have hcell : ∀ a ∈ σ.sems.list, σ'.sems.cell a = σ.sems.cell a := fun a ha => by
        rw [hsems, Table.cell_alloc_of_mem ha]
      have hmem : ∀ {a}, a ∈ σ'.sems.list → a ∈ σ.sems.list ∨ a = σ.sems.fresh hint := by
        intro a ha
        rw [hsems] at ha
        simpa using ha
      constructor
      · intro a ha
        rcases hmem ha with hm | rfl
        · rw [hcell a hm]
          exact hkeep a _ _ (h.law a hm)
        · rw [hsems, hself]
          exact hkeep _ _ _ (h.unused _ (Table.fresh_not_mem _ hint))
      · intro a ha
        refine hkeep a _ _ (h.unused a fun hm => ha ?_)
        rw [hsems]
        exact List.mem_append_left _ hm
      · intro a ha
        rw [hn]
        rcases hmem ha with hm | rfl
        · rw [hcell a hm]
          exact (h.bound a hm).trans (Int.lt_succ _)
        · rw [hsems, hself]
          exact Int.lt_succ _
      · intro a ha c hc heq
        rcases hmem ha with hm | rfl <;> rcases hmem hc with hm' | rfl
        · rw [hcell a hm, hcell c hm'] at heq
          exact h.inj a hm c hm' heq
        · rw [hcell a hm, hsems, hself] at heq
          exact absurd heq (h.bound a hm).ne
        · rw [hcell c hm', hsems, hself] at heq
          exact absurd heq.symm (h.bound c hm').ne
        · rfl
  | @inc b hi hw hwake hsems hn =>
      have hb := mem_of_semNamed hi
      have hlaw := h.law b hb
      have hnil : (σ.sems.cell b).waiting = [] := by
        refine hwake.elim (fun hpos => List.eq_nil_of_length_eq_zero ?_) id
        have hlen := hlaw.length
        omega
      have hlen := hlaw.length
      rw [hnil, List.length_nil] at hlen
      refine h.write hb hsems hn rfl ?_ fun a hab n w hc => hc.other ?_ (by simp [hw])
      · refine hlaw.inc (s := []) hi (by simp [hw]) (by simp [hnil]) rfl ?_
        rw [hnil, List.length_nil]
        omega
      · simpa [hi] using Ne.symm hab
  | @wake b q rest hi hw hneg hcons hready hsems hn =>
      have hb := mem_of_semNamed hi
      have hlaw := h.law b hb
      have hlen := hlaw.length
      rw [hcons, List.length_cons] at hlen
      have hb' : b ∈ σ'.sems.list := by rwa [hsems, Table.list_write]
      have hasleep := (hinv'.asleep (sem_blocked hb')).2
      rw [hsems, Table.cell_write_self hb] at hasleep
      have hfilter : rest.filter (· ∈ σ'.readyQueue) = [] := by
        rw [List.filter_eq_nil_iff]
        intro r hr
        simpa using (hasleep r hr).2
      refine h.write hb hsems hn rfl ?_ fun a hab n w hc => hc.other ?_ (by simp [hw])
      · refine hlaw.inc (s := [q]) hi (by simp [hw]) ?_ hcons ?_
        · dsimp only
          rw [hcons, List.filter_cons_of_pos (by simpa using hready), hfilter]
        · dsimp only
          omega
      · simpa [hi] using Ne.symm hab
  | @pass b hi hw ho hpos hsems hn =>
      have hb := mem_of_semNamed hw
      refine h.write hb hsems hn rfl ?_ fun a hab n w hc => hc.other (by simp [hi]) ?_
      · exact (h.law b hb).pass (by simp [hi]) hw ho hpos
      · simpa [hw] using Ne.symm hab
  | @sleep b p hi hw hp ho hneg hsems hn =>
      have hb := mem_of_semNamed hw
      refine h.write hb hsems hn rfl ?_ fun a hab n w hc => hc.other (by simp [hi]) ?_
      · exact (h.law b hb).sleep (by simp [hi]) hw hp ho hneg
      · simpa [hw] using Ne.symm hab

end SemLaw

/-! ## All runs -/

variable {b : Boot} {σ₀ : Kernel} {tr : List (Move Kernel Label)}

/-- In every run in which allocations succeed and idle only pauses, the count of each
semaphore is the number of sem_inc calls less the number of sem_wait calls made on it,
its waiting list has as many processes as there are more waits than increments, as many
waits have been let through as there are both waits and increments, sleepers are made
ready in the order in which they fell asleep, and no other semaphore has its id. -/
theorem run_semaphores (hok : ∀ a ∈ b.procMallocs, a.ok = true) (h₀ : kernelStart b = some σ₀)
    (h : Run step (fun σ l σ' => σ.Allocates l σ' ∧ σ.IdlePauses l) σ₀ tr σ)
    (ha : a ∈ σ.sems.list) :
    (σ.sems.cell a).count = (incs a tr : Int) - waits a tr ∧
      (σ.sems.cell a).waiting.length = waits a tr - incs a tr ∧
      (σ.sems.cell a).waiting.Nodup ∧
      passes a tr + (released a tr).length = min (waits a tr) (incs a tr) ∧
      sleepers a tr = released a tr ++ (σ.sems.cell a).waiting ∧
      ∀ c ∈ σ.sems.list, (σ.sems.cell c).id = (σ.sems.cell a).id → c = a := by
  have hboot := kernelStart_booted h₀
  have hready := kernelStart_ready hok h₀
  obtain ⟨hplaced, hlaw⟩ := h.history (I := fun tr σ => σ.Placed ∧ SemLaw tr σ)
    ⟨placed_boot hboot hready, by
      constructor
      · simp [hboot.sems]
      · exact fun a _ => ⟨rfl, rfl, rfl, rfl⟩
      · simp [hboot.sems]
      · simp [hboot.sems]⟩
    fun tr σ l σ' ⟨hinv, hlaw⟩ hs ⟨hal, hi⟩ => by
      have hinv' := hinv.step (step_cases hs) hal hi
      exact ⟨hinv', hlaw.step hinv' (sem_step hinv (step_cases hs) hal hi)⟩
  obtain ⟨hcount, hlength, horder, hcalls⟩ := hlaw.law a ha
  have hlen := congrArg List.length horder
  rw [List.length_append] at hlen
  refine ⟨hcount, by omega, (hplaced.asleep (sem_blocked ha)).1, by omega, horder,
    fun c hc => hlaw.inj c hc a ha⟩

/-- The theorem on a run in which init sleeps on a semaphore and its child wakes it. -/
theorem run_semaphores_child : ∃ σ₀ tr σ, kernelStart smallBoot = some σ₀ ∧
    Run step (fun σ l σ' => σ.Allocates l σ' ∧ σ.IdlePauses l) σ₀ tr σ ∧
    (σ.sems.cell 0).count = 0 ∧ (σ.sems.cell 0).count = (incs 0 tr : Int) - waits 0 tr := by
  obtain ⟨σ₀, tr, σ, h₀, hr, ha, hzero⟩ := bootExec_state (b := smallBoot)
    (C := fun σ l σ' => σ.Allocates l σ' ∧ σ.IdlePauses l)
    (t := [smallCall .custom0 0 0 0, smallCall .fork 0 0 0, smallCall .custom2 0 0 0,
      resumption, smallCall .custom1 0 0 0])
    (P := fun σ => 0 ∈ σ.sems.list ∧ (σ.sems.cell 0).count = 0)
    (by decide +kernel)
  exact ⟨σ₀, tr, σ, h₀, hr, hzero, (run_semaphores (by decide) h₀ hr ha).1⟩

end Kernel

end Yalnix
