import Yalnix.Placement.Context

/-!
# What a step does to a lock

`LockStep σ σ' l a` has one case for each thing that can happen to the lock at `a`
in a step: nothing, its creation, a process that takes it, one that queues up for it,
and its release, which wakes the first waiting process and leaves the lock free.
-/

namespace Yalnix

namespace Kernel

variable {σ σ' : Kernel} {l : Label} {p : Pid} {o : Outcome} {a : ℕ} {x : Int}

/-! ## The parts of the calls -/

/-- A turn of `sys_Acquire` takes a free lock and queues up for one that is held. -/
theorem acquireLoop_cases {via : Option Int} {e : Bool} (hcall : σ.Calling p)
    (h : σ.acquireLoop p via a x e = some (o, σ')) : a ∈ σ.locks.list ∧
      (((σ.locks.cell a).locked = true ∧ o = .switched ∧
          (σ'.pcb p).kctxt = .acquire via a x e ∧
          σ'.locks = σ.locks.write a { σ.locks.cell a with
            lockWaitList := (σ.locks.cell a).lockWaitList ++ [p] }) ∨
        ((σ.locks.cell a).locked = false ∧ o = .ret 0 ∧ σ'.activeProc = some p ∧
          σ'.locks = σ.locks.write a { σ.locks.cell a with locked := true, pid := p })) := by
  unfold acquireLoop at h
  dsimp only at h
  split at h
  swap
  · exact absurd h (by simp)
  rename_i ha
  refine ⟨ha, ?_⟩
  split at h
  · rename_i hlocked
    obtain ⟨rfl, htouch, hk⟩ := hcall.sleeps (.lockWaitInsert hcall.ok ha p) h
    refine .inl ⟨hlocked, rfl, hk, ?_⟩
    have hlocks : σ'.locks = (σ.lockWaitInsert a p).locks := htouch.same .lockTable (by simp)
    rw [hlocks, lockWaitInsert_ok hcall.ok]
  · rename_i hfree
    obtain ⟨rfl, rfl⟩ := Prod.mk.inj (Option.some.inj h)
    exact .inr ⟨by simpa using hfree, rfl, hcall.active, rfl⟩

/-- What a successful Release does to the lock at `a`. -/
structure Unlocks (σ τ : Kernel) (p : Pid) (x : Int) (a : ℕ) : Prop where
  find : σ.locks.find? (fun l => l.lockid = x ∧ l.pid = p ∧ l.locked = true) = some a
  wakes : ((σ.locks.cell a).lockWaitList = [] ∧
      τ.locks = σ.locks.write a { σ.locks.cell a with locked := false, pid := 0 }) ∨
    ∃ q rest, (σ.locks.cell a).lockWaitList = q :: rest ∧ q ∈ τ.readyQueue ∧
      τ.locks = σ.locks.write a
        { σ.locks.cell a with locked := false, pid := q, lockWaitList := rest }

theorem sysRelease_cases (hok : σ.mem.AllOk) (p : Pid) (x : Int) :
    (σ.sysRelease p x = (error, σ) ∧
      σ.locks.find? (fun l => l.lockid = x ∧ l.pid = p ∧ l.locked = true) = none) ∨
    ((σ.sysRelease p x).1 = 0 ∧ ∃ a, Unlocks σ (σ.sysRelease p x).2 p x a) := by
  unfold sysRelease
  cases hfind : σ.locks.find? fun l => l.lockid = x ∧ l.pid = p ∧ l.locked = true with
  | none => exact .inl ⟨rfl, rfl⟩
  | some a =>
      right
      dsimp only
      cases hl : (σ.locks.cell a).lockWaitList with
      | nil =>
          rw [listRemove_nil]
          refine ⟨rfl, a, hfind, .inl ⟨hl, ?_⟩⟩
          dsimp only
          rw [← hl]
      | cons q rest =>
          rw [listRemove_cons_one]
          refine ⟨rfl, a, hfind, .inr ⟨q, rest, hl, ?_, rfl⟩⟩
          dsimp only
          rw [readyInsert_ok (by exact hok)]
          simp

theorem newId_pos (σ : Kernel) : 0 < σ.newId := by
  unfold newId
  omega

theorem sysLockInit_locks (h : σ.sysLockInit p = some (o, σ')) :
    (∃ hint x, 0 < x ∧ σ'.locks = σ.locks.alloc hint ⟨x, false, 0, []⟩) ∨
      σ'.locks = σ.locks := by
  unfold sysLockInit at h
  dsimp only at h
  split at h
  · obtain ⟨-, rfl⟩ := Prod.mk.inj (Option.some.inj h)
    exact .inr rfl
  split at h
  · obtain ⟨-, rfl⟩ := Prod.mk.inj (Option.some.inj h)
    exact .inr rfl
  obtain ⟨τ, hτ, h⟩ := Option.bind_eq_some_iff.1 h
  have hlocks : τ.locks = σ.locks := (storeInt_touches hτ).same .lockTable (by simp)
  split at h
  · obtain ⟨-, rfl⟩ := Prod.mk.inj (Option.some.inj h)
    exact .inr hlocks
  have halloc : τ.malloc.2.locks.alloc σ.malloc.1.addr ⟨τ.newId, false, 0, []⟩ =
      σ.locks.alloc σ.malloc.1.addr ⟨τ.newId, false, 0, []⟩ :=
    congrArg (fun t : Table LockInfo => t.alloc _ _) hlocks
  split at h
  · obtain ⟨-, rfl⟩ := Prod.mk.inj (Option.some.inj h)
    exact .inl ⟨_, _, newId_pos τ, halloc⟩
  · obtain ⟨-, rfl⟩ := Prod.mk.inj (Option.some.inj h)
    exact .inl ⟨_, _, newId_pos τ, halloc⟩

/-! ## A whole step -/

/-- The Acquire of process `p` on the id `x` that step `l` makes or continues, or that
ends a CvarWait, comes to the lock at `a`. -/
inductive AcquiresAt (σ : Kernel) (l : Label) (p : Pid) (a : ℕ) (x : Int) : Prop
  | call {u : UserContext} (hl : l.event = .trap u) (hc : l.call = some .lockAcquire)
      (hx : (u.regs 0).toInt = x) (ha : σ.locks.find? (fun l => l.lockid = x) = some a)
  | again {via : Option Int} {e : Bool} (hl : l.event = .resume)
      (hk : (σ.pcb p).kctxt = .acquire via a x e)
  | after {c : ℕ} {cvarId y : Int} (hl : l.event = .resume)
      (hk : (σ.pcb p).kctxt = .cvarWait c cvarId y) (hy : y ≠ 0 → y = x)
      (ha : σ.locks.find? (fun l => l.lockid = x) = some a)

/-- The id of the lock that the Release or CvarWait of a step gives up. -/
def releaseId (l : Label) : Option Int :=
  match l.event with
  | .trap u =>
      if l.call = some .lockRelease then some (u.regs 0).toInt
      else if l.call = some .cvarWait then some (u.regs 1).toInt
      else none
  | _ => none

/-- The things that a step can do to the lock at `a`. -/
inductive LockStep (σ σ' : Kernel) (l : Label) (a : ℕ) : Prop
  | same (ha : a ∈ σ.locks.list) (hcell : σ'.locks.cell a = σ.locks.cell a)
  | fresh (ha : a ∉ σ.locks.list) (x : Int) (hcell : σ'.locks.cell a = ⟨x, false, 0, []⟩)
  | taken {p : Pid} {x : Int} (ha : a ∈ σ.locks.list) (hp : σ.activeProc = some p)
      (hx : σ.AcquiresAt l p a x) (ho : σ.outcome l = some (.ret 0))
      (hfree : (σ.locks.cell a).locked = false)
      (hcell : σ'.locks.cell a = { σ.locks.cell a with locked := true, pid := p })
  | queued {p : Pid} {x : Int} {via : Option Int} {e : Bool} (ha : a ∈ σ.locks.list)
      (hp : σ.activeProc = some p) (hx : σ.AcquiresAt l p a x)
      (ho : σ.outcome l = some .switched) (hheld : (σ.locks.cell a).locked = true)
      (hk : (σ'.pcb p).kctxt = .acquire via a x e)
      (he : e = true ∨ x = (σ.locks.cell a).lockid)
      (hcell : σ'.locks.cell a = { σ.locks.cell a with
        lockWaitList := (σ.locks.cell a).lockWaitList ++ [p] })
  | released {p : Pid} {x : Int} (ha : a ∈ σ.locks.list) (hp : σ.activeProc = some p)
      (hx : releaseId l = some x)
      (hfind : σ.locks.find? (fun l => l.lockid = x ∧ l.pid = p ∧ l.locked = true) = some a)
      (hcell : ((σ.locks.cell a).lockWaitList = [] ∧
          σ'.locks.cell a = { σ.locks.cell a with locked := false, pid := 0 }) ∨
        ∃ q rest, (σ.locks.cell a).lockWaitList = q :: rest ∧
          (q ≠ idle → q ∈ σ'.readyQueue ∨ σ'.activeProc = some q) ∧
          σ'.locks.cell a =
            { σ.locks.cell a with locked := false, pid := q, lockWaitList := rest })

namespace LockStep

theorem of_eq (h : σ'.locks = σ.locks) (ha : a ∈ σ'.locks.list) : LockStep σ σ' l a := by
  refine .same ?_ (by rw [h])
  rw [← h]
  exact ha

theorem of_touches {vs : List View} (h : Touches vs σ σ') (hvs : View.lockTable ∉ vs)
    (ha : a ∈ σ'.locks.list) : LockStep σ σ' l a :=
  of_eq (h.same .lockTable hvs) ha

/-- A write to another lock. -/
theorem of_write {b : ℕ} {y : LockInfo} (h : σ'.locks = σ.locks.write b y) (hb : a ≠ b)
    (ha : a ∈ σ'.locks.list) : LockStep σ σ' l a := by
  rw [h, Table.list_write] at ha
  exact .same ha (by rw [h, Table.cell_write_of_ne hb])

/-- A turn of an Acquire, with what comes around it in its step. -/
theorem acquire {σ₁ τ : Kernel} {via : Option Int} {e : Bool} {b : ℕ}
    (hlocks : σ₁.locks = σ.locks) (hcall : σ₁.Calling p) (hp : σ.activeProc = some p)
    (h : σ₁.acquireLoop p via b x e = some (o, τ)) (hx : σ.AcquiresAt l p b x)
    (ho : σ.outcome l = some o) (he : e = true ∨ x = (σ.locks.cell b).lockid)
    (ha : a ∈ (finish (o, τ)).locks.list) : LockStep σ (finish (o, τ)) l a := by
  obtain ⟨hmem, hcases⟩ := acquireLoop_cases hcall h
  rw [hlocks] at hmem hcases
  have hfin : (finish (o, τ)).locks = τ.locks := by
    cases o <;> rfl
  rcases hcases with ⟨hheld, rfl, hk, hwrite⟩ | ⟨hfree, rfl, -, hwrite⟩
  · by_cases hb : a = b
    · subst hb
      refine .queued hmem hp hx ho hheld hk he ?_
      rw [hfin, hwrite, Table.cell_write_self hmem]
    · exact .of_write (hfin.trans hwrite) hb ha
  · by_cases hb : a = b
    · subst hb
      refine .taken hmem hp hx ho hfree ?_
      rw [hfin, hwrite, Table.cell_write_self hmem]
    · exact .of_write (hfin.trans hwrite) hb ha

/-- A Release, or the release in a CvarWait, with what comes after it in its step. -/
theorem release {σ₁ τ : Kernel} {b : ℕ} (hlocks : σ₁.locks = σ.locks)
    (hp : σ.activeProc = some p) (hx : releaseId l = some x) (h : Unlocks σ₁ τ p x b)
    (hflow : ∀ q ∈ τ.readyQueue, q ≠ idle → q ∈ σ'.readyQueue ∨ σ'.activeProc = some q)
    (hsame : σ'.locks = τ.locks) (ha : a ∈ σ'.locks.list) : LockStep σ σ' l a := by
  obtain ⟨hfind, hwakes⟩ := h
  rw [hlocks] at hfind hwakes
  have hmem := Table.mem_of_find? hfind
  rcases hwakes with ⟨hnil, hwrite⟩ | ⟨q, rest, hcons, hq, hwrite⟩
  · by_cases hb : a = b
    · subst hb
      refine .released hmem hp hx hfind (.inl ⟨hnil, ?_⟩)
      rw [hsame, hwrite, Table.cell_write_self hmem]
    · exact .of_write (hsame.trans hwrite) hb ha
  · by_cases hb : a = b
    · subst hb
      refine .released hmem hp hx hfind (.inr ⟨q, rest, hcons, hflow q hq, ?_⟩)
      rw [hsame, hwrite, Table.cell_write_self hmem]
    · exact .of_write (hsame.trans hwrite) hb ha

end LockStep

theorem finish_locks (o : Outcome) (τ : Kernel) : (finish (o, τ)).locks = τ.locks :=
  (finish_touches o τ).same .lockTable (by simp)

/-- The Acquire that `sys_Acquire` makes from its start. -/
theorem sysAcquire_lockStep {σ₁ τ : Kernel} {v : Option Int} {i y : Int}
    (hlocks : σ₁.locks = σ.locks) (hcall : σ₁.Calling p) (hp : σ.activeProc = some p)
    (h : σ₁.sysAcquire p v i = some (o, τ)) (ho : σ.outcome l = some o)
    (hy : (if i = 0 then (σ₁.reg 0).toInt else i) = y)
    (hx : ∀ b, σ.locks.find? (fun l => l.lockid = y) = some b → σ.AcquiresAt l p b y)
    (ha : a ∈ (finish (o, τ)).locks.list) : LockStep σ (finish (o, τ)) l a := by
  unfold sysAcquire at h
  rw [hy, hlocks] at h
  dsimp only at h
  split at h
  · obtain ⟨rfl, rfl⟩ := Prod.mk.inj (Option.some.inj h)
    exact .of_eq hlocks ha
  split at h
  · obtain ⟨rfl, rfl⟩ := Prod.mk.inj (Option.some.inj h)
    exact .of_eq hlocks ha
  · rename_i b hb
    refine .acquire hlocks hcall hp h (hx b hb) ho (.inr ?_) ha
    have hid := Table.prop_of_find? hb
    exact (of_decide_eq_true hid).symm

/-- A CvarWait gives up its lock first, and then sleeps or fails. -/
theorem sysCvarWait_release (hcall : σ.Calling p) (h : σ.sysCvarWait p = some (o, σ')) :
    σ'.locks = σ.locks ∨ ∃ a τ, Unlocks σ τ p (σ.reg 1).toInt a ∧ σ'.locks = τ.locks ∧
      Flows τ σ' := by
  unfold sysCvarWait at h
  dsimp only at h
  have hrel := Requeues.sysRelease hcall.ok p (σ.reg 1).toInt
  rcases sysRelease_cases hcall.ok p (σ.reg 1).toInt with ⟨herr, -⟩ | ⟨hzero, a, hun⟩
  · rw [herr, if_pos (show error ≠ 0 by decide)] at h
    obtain ⟨-, rfl⟩ := Prod.mk.inj (Option.some.inj h)
    exact .inl rfl
  rw [if_neg (not_not.2 hzero)] at h
  refine .inr ⟨a, _, hun, ?_⟩
  have hcall' := hcall.requeued hrel
  split at h
  · obtain ⟨-, rfl⟩ := Prod.mk.inj (Option.some.inj h)
    exact ⟨rfl, .of_feeds (.same rfl rfl rfl)⟩
  · rename_i c hfind
    have hins := Requeues.cvarWaitInsert hcall'.ok (Table.mem_of_find? hfind) p
    obtain ⟨-, htouch, -⟩ := hcall'.sleeps hins h
    refine ⟨?_, (Moves.block hcall'.active hcall'.ready hins h).1.flow⟩
    rw [show σ'.locks = _ from htouch.same .lockTable (by simp), cvarWaitInsert_ok hcall'.ok]

/-- What one step does to a lock that is there after it. -/
theorem lock_step (hinv : σ.Placed) (h : Steps σ l σ') (hal : σ.Allocates l σ')
    (hi : σ.IdlePauses l) (ha : a ∈ σ'.locks.list) : LockStep σ σ' l a := by
  have hs := h
  cases h with
  | @call u p c o τ hl hu hv hp hc h =>
      have hne : p ≠ idle := hi.ne hl hp (by simp [hv])
      have hcall := hinv.calling (enter_touches σ l u) hal.begin hp hne
      have ho := outcome_call hl hv hp hc h
      have hlc : l.call = some c := by simp [Label.call, hl, hv, hc]
      have hother : View.lockTable ∉ callViews c → LockStep σ (finish (o, τ)) l a := fun hvs =>
        .of_eq ((finish_locks o τ).trans ((sysCall_touches h).same .lockTable hvs)) ha
      cases c with
      | lockInit =>
          rcases sysLockInit_locks (p := p) h with ⟨hint, x, -, halloc⟩ | hsame
          · rw [finish_locks, halloc] at ha
            rcases List.mem_append.1 ha with hm | hm
            · refine .same hm ?_
              rw [finish_locks, halloc]
              exact Table.cell_alloc_of_mem hm hint _
            · obtain rfl := List.mem_singleton.1 hm
              refine .fresh (Table.fresh_not_mem _ hint) x ?_
              rw [finish_locks, halloc]
              exact Table.cell_alloc_self _ hint _
          · exact .of_eq ((finish_locks o τ).trans hsame) ha
      | lockAcquire =>
          exact sysAcquire_lockStep (i := 0) (v := none) (by rfl) hcall hp h ho (if_pos rfl)
            (fun b hb => .call hl hlc rfl hb) ha
      | lockRelease =>
          rcases sysRelease_cases hcall.ok p (u.regs 0).toInt with ⟨herr, -⟩ | ⟨-, b, hun⟩
          · have hsame : τ.locks = σ.locks := by
              have := (Prod.mk.inj (Option.some.inj h)).2
              rw [← this]
              change (((σ.begin l).enter u).sysRelease p (u.regs 0).toInt).2.locks = σ.locks
              rw [herr]
              rfl
            exact .of_eq ((finish_locks o τ).trans hsame) ha
          · obtain ⟨rfl, rfl⟩ := Prod.mk.inj (Option.some.inj h)
            exact .release (by rfl) hp (by simp [releaseId, hl, hlc]) hun
              (fun q hq _ => .inl hq) rfl ha
      | cvarWait =>
          rcases sysCvarWait_release hcall h with hsame | ⟨b, τ₁, hun, hlocks, hflow⟩
          · exact .of_eq ((finish_locks o τ).trans hsame) ha
          · have hbegin : ((σ.begin l).enter u).locks = σ.locks := rfl
            refine .release (x := (u.regs 1).toInt) hbegin hp (by simp [releaseId, hl, hlc])
              hun ?_ ((finish_locks o τ).trans hlocks) ha
            intro q hq hne
            have hend := hflow.seq (finish_touches o τ) (by simp)
            exact hend.ready hq hne
      | reclaim =>
          rw [finish_locks] at ha
          obtain ⟨hm, hcell⟩ := (sysReclaim_frees h).2.1.keeps ha
          exact .same hm (by rw [finish_locks, hcell]; rfl)
      | _ => exact hother (by simp [callViews])
  | @resume p o τ hl hu hp h =>
      have ho := outcome_resume hl hp h
      have hother : View.lockTable ∉ resumeViews (σ.pcb p).kctxt →
          LockStep σ (finish (o, τ)) l a := fun hvs =>
        .of_eq ((finish_locks o τ).trans ((resumeCall_touches h).same .lockTable hvs)) ha
      cases hk : (σ.pcb p).kctxt with
      | acquire via b x e =>
          have hcall := hinv.continuing hal hp (by simp [hk])
          rw [hk] at h
          change ((σ.begin l).restore p).sysAcquireResume p via b x e = _ at h
          unfold sysAcquireResume at h
          dsimp only at h
          split at h
          · rename_i hexist
            exact .acquire (by rfl) hcall hp h (.again hl hk) ho (.inl hexist) ha
          · obtain ⟨rfl, rfl⟩ := Prod.mk.inj (Option.some.inj h)
            exact .of_eq rfl ha
      | cvarWait c i y =>
          have hcall := hinv.continuing hal hp (by simp [hk])
          rw [hk] at h
          change ((σ.begin l).restore p).sysCvarWaitResume p i y = _ at h
          unfold sysCvarWaitResume at h
          split at h
          · exact sysAcquire_lockStep (by rfl) hcall hp h ho rfl
              (fun b hb => .after hl hk (fun hy => (if_neg hy).symm) hb) ha
          · obtain ⟨rfl, rfl⟩ := Prod.mk.inj (Option.some.inj h)
            exact .of_eq rfl ha
      | _ => exact hother (by simp [hk, resumeViews])
  | _ =>
      exact .of_eq
        (hs.quiet (v := .lockTable) (by simp_all [Label.call]) (by simp_all) (by simp)) ha

end Kernel

end Yalnix
