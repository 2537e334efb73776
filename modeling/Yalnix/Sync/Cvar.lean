import Yalnix.Sync.Lock

/-!
# What a step does to a condition variable

A CvarWait gives up its lock and queues up in one step; a CvarSignal wakes the first
process that waits and a CvarBroadcast all of them, in order. `CvarStep σ σ' l a` has one
case for each thing that can happen to the cvar at `a` in a step.
-/

namespace Yalnix

open Transition

/-- Argument `i` of the kernel call that is made. -/
def Label.arg (l : Label) (i : Fin 8) : Int :=
  match l.event with
  | .trap u => (u.regs i).toInt
  | _ => 0

namespace Kernel

variable {σ σ' : Kernel} {l : Label} {p q : Pid} {o : Outcome} {a : ℕ}

/-- The cvar that the call `c` in step `l` is made on. -/
def cvarNamed (σ : Kernel) (l : Label) (c : Call) : Option ℕ :=
  if l.call = some c then σ.cvars.find? fun x => x.cvarid = l.arg 0 else none

/-- The kernel when the first `n` processes that wait for the cvar at `a` have been made ready,
with one `malloc` for each. -/
def wakeWaiters (σ : Kernel) (a n : ℕ) : Kernel :=
  { σ with
    mem := σ.mem.afterMallocs ((σ.cvars.cell a).cvarWaitList.take n).length
    readyQueue := σ.readyQueue ++ (σ.cvars.cell a).cvarWaitList.take n
    readied := σ.readied ++ (σ.cvars.cell a).cvarWaitList.take n
    cvars := σ.cvars.write a { σ.cvars.cell a with
      cvarWaitList := (σ.cvars.cell a).cvarWaitList.drop n } }

/-! ## The calls -/

/-- A CvarSignal wakes the first process that waits, if there is one. -/
theorem sysCvarSignal_ok (hok : σ.mem.AllOk) (hid : 0 ≤ (σ.reg 0).toInt)
    (hfind : σ.cvars.find? (fun x => x.cvarid = (σ.reg 0).toInt) = some a) :
    σ.sysCvarSignal p = some (.ret 0, σ.wakeWaiters a 1) := by
  unfold sysCvarSignal
  dsimp only
  rw [if_neg (not_lt.2 hid), hfind]
  dsimp only
  cases hl : (σ.cvars.cell a).cvarWaitList with
  | nil =>
      rw [listRemove_nil]
      have hsame : σ.cvars.write a { σ.cvars.cell a with cvarWaitList := [] } = σ.cvars := by
        rw [← hl]
        exact σ.cvars.write_self a
      simp [wakeWaiters, hl, hsame, Mem.afterMallocs]
  | cons q rest =>
      rw [listRemove_cons_one]
      dsimp only
      rw [readyInsert_ok (by exact hok)]
      simp [wakeWaiters, hl, Mem.afterMallocs]

theorem wakeAll_ok (ps : List Pid) (hok : σ.mem.AllOk) : wakeAll ps σ = (0, [], { σ with
    mem := σ.mem.afterMallocs ps.length
    readyQueue := σ.readyQueue ++ ps
    readied := σ.readied ++ ps }) := by
  induction ps generalizing σ with
  | nil => simp [wakeAll, Mem.afterMallocs]
  | cons q ps ih =>
      unfold wakeAll
      dsimp only
      rw [readyInsert_ok hok]
      have hrest := ih (σ := { σ with
        readyQueue := σ.readyQueue ++ [q]
        mem := σ.mem.malloc.2
        readied := σ.readied ++ [q] }) hok.malloc
      dsimp only
      rw [if_neg (by simp), hrest]
      simp [Mem.afterMallocs]

/-- A CvarBroadcast wakes all processes that wait, in this order, and ends. -/
theorem sysCvarBroadcast_ok (hok : σ.mem.AllOk) (hid : 0 ≤ (σ.reg 0).toInt)
    (hfind : σ.cvars.find? (fun x => x.cvarid = (σ.reg 0).toInt) = some a) :
    σ.sysCvarBroadcast p =
      some (.ret 0, σ.wakeWaiters a (σ.cvars.cell a).cvarWaitList.length) := by
  unfold sysCvarBroadcast
  dsimp only
  rw [if_neg (not_lt.2 hid), hfind]
  dsimp only
  rw [wakeAll_ok (σ.cvars.cell a).cvarWaitList hok]
  simp [wakeWaiters]

/-- A call on a cvar that does not exist fails. -/
theorem sysCvarSignal_none
    (hfind : σ.cvars.find? (fun x => x.cvarid = (σ.reg 0).toInt) = none) :
    σ.sysCvarSignal p = some (.ret error, σ) := by
  unfold sysCvarSignal
  dsimp only
  rw [hfind]
  split <;> rfl

theorem sysCvarBroadcast_none
    (hfind : σ.cvars.find? (fun x => x.cvarid = (σ.reg 0).toInt) = none) :
    σ.sysCvarBroadcast p = some (.ret error, σ) := by
  unfold sysCvarBroadcast
  dsimp only
  rw [hfind]
  split <;> rfl

/-- A CvarWait fails, or it gives up its lock and sleeps in the waiting list. -/
theorem sysCvarWait_cases (hcall : σ.Calling p) (h : σ.sysCvarWait p = some (o, σ')) :
    (o = .ret error ∧ σ'.cvars = σ.cvars) ∨
      ∃ b a, σ.locks.find? (fun l =>
          l.lockid = (σ.reg 1).toInt ∧ l.pid = p ∧ l.locked = true) = some b ∧
        (σ'.locks.cell b).locked = false ∧
        σ.cvars.find? (fun x => x.cvarid = (σ.reg 0).toInt) = some a ∧ o = .switched ∧
        (σ'.pcb p).kctxt = .cvarWait a (σ.reg 0).toInt (σ.reg 1).toInt ∧
        σ'.cvars = σ.cvars.write a { σ.cvars.cell a with
          cvarWaitList := (σ.cvars.cell a).cvarWaitList ++ [p] } := by
  unfold sysCvarWait at h
  dsimp only at h
  rcases sysRelease_cases hcall.ok p (σ.reg 1).toInt with ⟨herr, -⟩ | ⟨hzero, b, hun⟩
  · rw [herr, if_pos (show error ≠ 0 by decide)] at h
    obtain ⟨rfl, rfl⟩ := Prod.mk.inj (Option.some.inj h)
    exact .inl ⟨rfl, rfl⟩
  have hrel := Requeues.sysRelease hcall.ok p (σ.reg 1).toInt
  have hcvars : (σ.sysRelease p (σ.reg 1).toInt).2.cvars = σ.cvars :=
    (sysRelease_touches σ p _).same .cvars (by simp)
  have hfree : ((σ.sysRelease p (σ.reg 1).toInt).2.locks.cell b).locked = false := by
    have hmem := Table.mem_of_find? hun.find
    rcases hun.wakes with ⟨-, hw⟩ | ⟨q, rest, -, -, hw⟩
    · rw [hw, Table.cell_write_self hmem]
    · rw [hw, Table.cell_write_self hmem]
  rw [if_neg (not_not.2 hzero), hcvars] at h
  have hcall' := hcall.requeued hrel
  split at h
  · obtain ⟨rfl, rfl⟩ := Prod.mk.inj (Option.some.inj h)
    exact .inl ⟨rfl, hcvars⟩
  · rename_i a hfind
    have ha := Table.mem_of_find? hfind
    have hins := Requeues.cvarWaitInsert hcall'.ok (a := a) (by rw [hcvars]; exact ha) p
    obtain ⟨rfl, htouch, hk⟩ := hcall'.sleeps hins h
    refine .inr ⟨b, a, hun.find, ?_, hfind, rfl, hk, ?_⟩
    · rw [show σ'.locks = _ from htouch.same .lockTable (by simp), cvarWaitInsert_ok hcall'.ok]
      exact hfree
    · rw [show σ'.cvars = _ from htouch.same .cvars (by simp), cvarWaitInsert_ok hcall'.ok]
      dsimp only
      rw [hcvars]

theorem sysCvarInit_cvars (h : σ.sysCvarInit p = some (o, σ')) :
    (∃ hint x, 0 < x ∧ σ'.cvars = σ.cvars.alloc hint ⟨x, []⟩) ∨ σ'.cvars = σ.cvars := by
  unfold sysCvarInit at h
  dsimp only at h
  split at h
  · obtain ⟨-, rfl⟩ := Prod.mk.inj (Option.some.inj h)
    exact .inr rfl
  split at h
  · obtain ⟨-, rfl⟩ := Prod.mk.inj (Option.some.inj h)
    exact .inr rfl
  obtain ⟨τ, hτ, h⟩ := Option.bind_eq_some_iff.1 h
  have hcvars : τ.cvars = σ.cvars := (storeInt_touches hτ).same .cvars (by simp)
  split at h
  · obtain ⟨-, rfl⟩ := Prod.mk.inj (Option.some.inj h)
    exact .inr hcvars
  split at h
  swap
  · exact absurd h (by simp)
  have halloc : τ.malloc.2.cvars.alloc σ.malloc.2.malloc.1.addr ⟨τ.newId, []⟩ =
      σ.cvars.alloc σ.malloc.2.malloc.1.addr ⟨τ.newId, []⟩ :=
    congrArg (fun t : Table CvarInfo => t.alloc _ _) hcvars
  split at h
  · obtain ⟨-, rfl⟩ := Prod.mk.inj (Option.some.inj h)
    exact .inl ⟨_, _, newId_pos τ, halloc⟩
  · obtain ⟨-, rfl⟩ := Prod.mk.inj (Option.some.inj h)
    exact .inl ⟨_, _, newId_pos τ, halloc⟩

/-! ## Ids -/

/-- The ids of locks and cvars are positive. -/
structure Ids (σ : Kernel) : Prop where
  locks : ∀ a ∈ σ.locks.list, 0 < (σ.locks.cell a).lockid
  cvars : ∀ a ∈ σ.cvars.list, 0 < (σ.cvars.cell a).cvarid

/-- What a step does to the ids of locks and cvars: only an Init adds one, and only a
Reclaim takes one away. -/
theorem id_step (hs : Steps σ l σ') :
    Table.Rekeys LockInfo.lockid (0 < ·) (l.call = some .reclaim) σ.locks σ'.locks ∧
      Table.Rekeys CvarInfo.cvarid (0 < ·) (l.call = some .reclaim) σ.cvars σ'.cvars := by
  have hobjects : View.objects.Same σ σ' →
      Table.Rekeys LockInfo.lockid (0 < ·) (l.call = some .reclaim) σ.locks σ'.locks ∧
        Table.Rekeys CvarInfo.cvarid (0 < ·) (l.call = some .reclaim) σ.cvars σ'.cvars :=
    fun ⟨_, _, ⟨hlocks, hlockid⟩, hcvars, hcvarid⟩ =>
      ⟨.same hlocks hlockid, .same hcvars hcvarid⟩
  have hs' := hs
  cases hs with
  | @call u p c o τ hl hu hv hp hc hcall =>
      have ht := call_touches (enter_touches σ l u) (sysCall_touches hcall) o
      have hlocks : (finish (o, τ)).locks = τ.locks := finish_locks o τ
      have hcvars : (finish (o, τ)).cvars = τ.cvars := (finish_touches o τ).same .cvars (by simp)
      cases c with
      | pipeInit =>
          exact ⟨.of_eq (ht.same .lockTable (by simp [callViews])),
            .of_eq (ht.same .cvars (by simp [callViews]))⟩
      | lockInit =>
          refine ⟨?_, .of_eq (ht.same .cvars (by simp [callViews]))⟩
          rcases sysLockInit_locks (p := p) hcall with ⟨hint, x, hx, halloc⟩ | hsame
          · exact .alloc hint ⟨x, false, 0, []⟩ hx (hlocks.trans halloc)
          · exact .of_eq (hlocks.trans hsame)
      | cvarInit =>
          refine ⟨.of_eq (ht.same .lockTable (by simp [callViews])), ?_⟩
          rcases sysCvarInit_cvars (p := p) hcall with ⟨hint, x, hx, halloc⟩ | hsame
          · exact .alloc hint ⟨x, []⟩ hx (hcvars.trans halloc)
          · exact .of_eq (hcvars.trans hsame)
      | reclaim =>
          have hr : l.call = some .reclaim := by simp [Label.call, hl, hv, hc]
          obtain ⟨-, hfl, hfc⟩ := sysReclaim_frees hcall
          exact ⟨.free hr (by rw [hlocks]; exact hfl), .free hr (by rw [hcvars]; exact hfc)⟩
      | _ => exact hobjects (ht.same .objects (by simp [callViews]))
  | @resume p o τ hl hu hp hcall =>
      have ht := call_touches (restore_touches σ l p) (resumeCall_touches hcall) o
      refine hobjects (ht.same .objects ?_)
      cases (σ.pcb p).kctxt <;> simp [resumeViews]
  | _ => exact hobjects (hs'.quiet (by simp_all [Label.call]) (by simp_all) (by simp))

theorem Ids.step (h : σ.Ids) (hs : Steps σ l σ') : σ'.Ids where
  locks := (id_step hs).1.forall_key h.locks
  cvars := (id_step hs).2.forall_key h.cvars

/-! ## A whole step -/

/-- The things that a step can do to the cvar at `a`. -/
inductive CvarStep (σ σ' : Kernel) (l : Label) (a : ℕ) : Prop
  | same (ha : a ∈ σ.cvars.list) (hcell : σ'.cvars.cell a = σ.cvars.cell a)
      (hw : σ.cvarNamed l .cvarWait = some a → σ.outcome l = some (.ret error))
      (hs : σ.cvarNamed l .cvarSignal ≠ some a) (hb : σ.cvarNamed l .cvarBroadcast ≠ some a)
  | fresh (ha : a ∉ σ.cvars.list) (x : Int) (hcell : σ'.cvars.cell a = ⟨x, []⟩)
  | waits {p : Pid} (ha : a ∈ σ.cvars.list) (hp : σ.activeProc = some p)
      (hw : σ.cvarNamed l .cvarWait = some a) (ho : σ.outcome l = some .switched)
      (hk : (σ'.pcb p).kctxt = .cvarWait a (l.arg 0) (l.arg 1))
      (hlock : ∃ b, σ.locks.find? (fun x =>
          x.lockid = l.arg 1 ∧ x.pid = p ∧ x.locked = true) = some b ∧
        (σ'.locks.cell b).locked = false)
      (hcell : σ'.cvars.cell a = { σ.cvars.cell a with
        cvarWaitList := (σ.cvars.cell a).cvarWaitList ++ [p] })
  | woken {n : ℕ} (ha : a ∈ σ.cvars.list)
      (hn : σ.cvarNamed l .cvarSignal = some a ∧ n = 1 ∨
        σ.cvarNamed l .cvarBroadcast = some a ∧ n = (σ.cvars.cell a).cvarWaitList.length)
      (hready : σ'.readyQueue = σ.readyQueue ++ (σ.cvars.cell a).cvarWaitList.take n)
      (hcell : σ'.cvars.cell a = { σ.cvars.cell a with
        cvarWaitList := (σ.cvars.cell a).cvarWaitList.drop n })

theorem cvarNamed_of_call {u : UserContext} {c : Call} (hl : l.event = .trap u)
    (hc : l.call = some c) (c' : Call) : σ.cvarNamed l c' =
      if c = c' then σ.cvars.find? fun x => x.cvarid = (u.regs 0).toInt else none := by
  simp [cvarNamed, Label.arg, hl, hc]

theorem cvarNamed_eq_none {c : Call} (hc : l.call ≠ some c) : σ.cvarNamed l c = none := if_neg hc

theorem mem_of_cvarNamed {c : Call} (h : σ.cvarNamed l c = some a) : a ∈ σ.cvars.list := by
  unfold cvarNamed at h
  split at h
  · exact Table.mem_of_find? h
  · exact absurd h (by simp)

/-- A step that makes none of the three calls. -/
theorem CvarStep.of_same (hcall : ∀ c ∈ [Call.cvarWait, .cvarSignal, .cvarBroadcast],
    l.call ≠ some c) (ha : a ∈ σ.cvars.list) (hcell : σ'.cvars.cell a = σ.cvars.cell a) :
    CvarStep σ σ' l a := by
  have hnone : ∀ c ∈ [Call.cvarWait, .cvarSignal, .cvarBroadcast], σ.cvarNamed l c = none :=
    fun c hc => cvarNamed_eq_none (hcall c hc)
  exact .same ha hcell (by simp [hnone .cvarWait (by simp)]) (by simp [hnone .cvarSignal (by simp)])
    (by simp [hnone .cvarBroadcast (by simp)])

/-- A CvarSignal or CvarBroadcast that makes the first `n` processes ready. -/
theorem CvarStep.wakes {u : UserContext} {c : Call} {b n : ℕ} (hl : l.event = .trap u)
    (hc : l.call = some c) (hfind : σ.cvars.find? (fun x => x.cvarid = (u.regs 0).toInt) = some b)
    (hn : c = .cvarSignal ∧ n = 1 ∨
      c = .cvarBroadcast ∧ n = (σ.cvars.cell b).cvarWaitList.length)
    (hσ' : σ' = finish (.ret 0, ((σ.begin l).enter u).wakeWaiters b n))
    (ha : a ∈ σ'.cvars.list) : CvarStep σ σ' l a := by
  have hnamed := cvarNamed_of_call (σ := σ) hl hc
  have hcvars : σ'.cvars = σ.cvars.write b { σ.cvars.cell b with
      cvarWaitList := (σ.cvars.cell b).cvarWaitList.drop n } := by
    rw [hσ']
    rfl
  have hready : σ'.readyQueue = σ.readyQueue ++ (σ.cvars.cell b).cvarWaitList.take n := by
    rw [hσ']
    rfl
  by_cases hb : a = b
  · subst hb
    have hmem := Table.mem_of_find? hfind
    refine .woken (n := n) hmem ?_ hready (by rw [hcvars, Table.cell_write_self hmem])
    rcases hn with ⟨rfl, hn⟩ | ⟨rfl, hn⟩
    · exact .inl ⟨(hnamed _).trans hfind, hn⟩
    · exact .inr ⟨(hnamed _).trans hfind, hn⟩
  · have hother : ∀ c', σ.cvarNamed l c' ≠ some a := by
      intro c'
      rw [hnamed c', hfind]
      split
      · simpa using Ne.symm hb
      · simp
    rw [hcvars] at ha
    exact .same ha (by rw [hcvars, Table.cell_write_of_ne hb]) (fun hw => absurd hw (hother _))
      (hother _) (hother _)

/-- What one step does to a cvar that is there after it. -/
theorem cvar_step (hinv : σ.Placed) (hids : σ.Ids) (h : Steps σ l σ') (hal : σ.Allocates l σ')
    (hi : σ.IdlePauses l) (ha : a ∈ σ'.cvars.list) : CvarStep σ σ' l a := by
  have hs := h
  have hview : View.cvars.Same σ σ' → (∀ c ∈ [Call.cvarWait, .cvarSignal, .cvarBroadcast],
      l.call ≠ some c) → CvarStep σ σ' l a := fun he hc => by
    have he' : σ'.cvars = σ.cvars := he
    exact .of_same hc (he' ▸ ha) (by rw [he'])
  cases h with
  | @call u p c o τ hl hu hv hp hc h =>
      have hlc : l.call = some c := by simp [Label.call, hl, hv, hc]
      have ht := call_touches (enter_touches σ l u) (sysCall_touches h) o
      have hfin : (finish (o, τ)).cvars = τ.cvars := (finish_touches o τ).same .cvars (by simp)
      have hnamed := cvarNamed_of_call (σ := σ) hl hlc
      have hpos : ∀ {b}, σ.cvars.find? (fun x => x.cvarid = (u.regs 0).toInt) = some b →
          0 ≤ (u.regs 0).toInt := fun hfind => by
        have hid := Table.prop_of_find? hfind
        exact of_decide_eq_true hid ▸ (hids.cvars _ (Table.mem_of_find? hfind)).le
      -- a call on a cvar that does not exist
      have hnone : σ.cvars.find? (fun x => x.cvarid = (u.regs 0).toInt) = none →
          τ.cvars = σ.cvars → CvarStep σ (finish (o, τ)) l a := fun hfind he => by
        have hn : ∀ c', σ.cvarNamed l c' ≠ some a := fun c' => by
          rw [hnamed c', hfind]
          simp
        rw [hfin, he] at ha
        exact .same ha (by rw [hfin, he]) (fun hw => absurd hw (hn _)) (hn _) (hn _)
      cases c with
      | cvarSignal =>
          change ((σ.begin l).enter u).sysCvarSignal p = _ at h
          cases hfind : σ.cvars.find? fun x => x.cvarid = (u.regs 0).toInt with
          | none =>
              obtain ⟨rfl, rfl⟩ :=
                Prod.mk.inj (Option.some.inj ((sysCvarSignal_none hfind).symm.trans h))
              exact hnone hfind rfl
          | some b =>
              have hm := sysCvarSignal_ok (σ := (σ.begin l).enter u) (p := p) hal.begin
                (hpos hfind) hfind
              obtain ⟨rfl, rfl⟩ := Prod.mk.inj (Option.some.inj (hm.symm.trans h))
              exact .wakes hl hlc hfind (.inl ⟨rfl, rfl⟩) rfl ha
      | cvarBroadcast =>
          change ((σ.begin l).enter u).sysCvarBroadcast p = _ at h
          cases hfind : σ.cvars.find? fun x => x.cvarid = (u.regs 0).toInt with
          | none =>
              obtain ⟨rfl, rfl⟩ :=
                Prod.mk.inj (Option.some.inj ((sysCvarBroadcast_none hfind).symm.trans h))
              exact hnone hfind rfl
          | some b =>
              have hm := sysCvarBroadcast_ok (σ := (σ.begin l).enter u) (p := p) hal.begin
                (hpos hfind) hfind
              obtain ⟨rfl, rfl⟩ := Prod.mk.inj (Option.some.inj (hm.symm.trans h))
              exact .wakes hl hlc hfind (.inr ⟨rfl, rfl⟩) rfl ha
      | cvarWait =>
          have hcall := hinv.calling (enter_touches σ l u) hal.begin hp (hi.ne hl hp (by simp [hv]))
          have ho := outcome_call hl hv hp hc h
          have hsig : σ.cvarNamed l .cvarSignal = none := hnamed _
          have hbro : σ.cvarNamed l .cvarBroadcast = none := hnamed _
          rcases sysCvarWait_cases hcall h with ⟨rfl, hsame⟩ |
            ⟨b, c, hlock, hfree, hfind, rfl, hk, hwrite⟩
          · have hcvars : (finish (.ret error, τ)).cvars = σ.cvars := hfin.trans hsame
            rw [hcvars] at ha
            exact .same ha (by rw [hcvars]) (fun _ => ho) (by simp [hsig]) (by simp [hbro])
          · have hcvars : (finish (.switched, τ)).cvars = σ.cvars.write c { σ.cvars.cell c with
                cvarWaitList := (σ.cvars.cell c).cvarWaitList ++ [p] } := hfin.trans hwrite
            rw [hcvars] at ha
            by_cases hb : a = c
            · subst hb
              refine .waits ha hp ((hnamed _).trans hfind) ho ?_ ⟨b, ?_, hfree⟩ ?_
              · simp only [Label.arg, hl]
                exact hk
              · simp only [Label.arg, hl]
                exact hlock
              · rw [hcvars, Table.cell_write_self (by exact ha)]
            · refine .same ha (by rw [hcvars, Table.cell_write_of_ne hb]) ?_ (by simp [hsig])
                (by simp [hbro])
              rw [hnamed, if_pos rfl]
              intro hw
              exact absurd (Option.some.inj (hw.symm.trans hfind)) hb
      | cvarInit =>
          rcases sysCvarInit_cvars (p := p) h with ⟨hint, x, -, halloc⟩ | hsame
          · have hcvars : (finish (o, τ)).cvars = σ.cvars.alloc hint ⟨x, []⟩ := hfin.trans halloc
            rw [hcvars] at ha
            rcases List.mem_append.1 ha with hm | hm
            · exact .of_same (by simp [hlc]) hm (by rw [hcvars, Table.cell_alloc_of_mem hm])
            · obtain rfl := List.mem_singleton.1 hm
              exact .fresh (Table.fresh_not_mem _ hint) x (by rw [hcvars, Table.cell_alloc_self])
          · exact hview (hfin.trans hsame) (by simp [hlc])
      | reclaim =>
          rw [hfin] at ha
          obtain ⟨hm, hcell⟩ := (sysReclaim_frees h).2.2.keeps ha
          exact .of_same (by simp [hlc]) hm (by rw [hfin, hcell]; rfl)
      | _ => exact hview (ht.same .cvars (by simp [callViews])) (by simp [hlc])
  | @resume p o τ hl hu hp h =>
      have ht := call_touches (restore_touches σ l p) (resumeCall_touches h) o
      refine hview (ht.same .cvars ?_) (by simp [Label.call, hl])
      cases (σ.pcb p).kctxt <;> simp [resumeViews]
  | _ =>
      have hcall : l.call = none := by simp_all [Label.call]
      exact hview (hs.quiet hcall (by simp_all) (by simp)) (by simp [hcall])

end Kernel

end Yalnix
