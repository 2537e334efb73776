import Yalnix.Sync.Cvar
import Yalnix.Tree.ProcessTable

/-!
# Reclaim and the processes that wait

The `destroy` functions compare their counter with the length of a waiting list that they
shorten, so of `n` processes that wait the first half, rounded up, is made ready. The others
stay alive and are in no list of the kernel, and a process that is in none never gets into
one again, whatever the kernel does.
-/

namespace Yalnix

open Transition

namespace Kernel

variable {σ σ' σ₀ τ : Kernel} {l : Label} {p q : Pid} {o : Outcome} {a : ℕ} {k : Kind}
  {tr : List (Move Kernel Label)} {b : Boot}

/-! ## Objects by their type -/

/-- The addresses of the objects of a type. -/
def objects (σ : Kernel) : Kind → List ℕ
  | .pipe => σ.pipes.list
  | .lock => σ.locks.list
  | .cvar => σ.cvars.list

/-- The id of the object at `a`. -/
def objectId (σ : Kernel) (a : ℕ) : Kind → Int
  | .pipe => (σ.pipes.cell a).pipeid
  | .lock => (σ.locks.cell a).lockid
  | .cvar => (σ.cvars.cell a).cvarid

/-- The processes that wait for the object at `a`. -/
def waiters (σ : Kernel) (a : ℕ) : Kind → List Pid
  | .pipe => (σ.pipes.cell a).pipeWaitList
  | .lock => (σ.locks.cell a).lockWaitList
  | .cvar => (σ.cvars.cell a).cvarWaitList

/-- The kernel when the object at `a` has left its list. -/
def dropObject (σ : Kernel) (a : ℕ) : Kind → Kernel
  | .pipe => { σ with pipes := σ.pipes.free a }
  | .lock => { σ with locks := σ.locks.free a }
  | .cvar => { σ with cvars := σ.cvars.free a }

/-- How many of the processes that wait for the object at `a` are made ready when it is
destroyed. -/
def woken (σ : Kernel) (a : ℕ) (k : Kind) : ℕ := ((σ.waiters a k).length + 1) / 2

/-- The kernel after a Reclaim of the object at `a`, whose id is `id`, with one `malloc` for
each process that has been made ready. -/
def reclaimed (σ : Kernel) (a : ℕ) (k : Kind) (id : Int) : Kernel :=
  let ps := (σ.waiters a k).take (σ.woken a k)
  { ({ σ with
      mem := σ.mem.afterMallocs ps.length
      readyQueue := σ.readyQueue ++ ps
      readied := σ.readied ++ ps } : Kernel).dropObject a k with
    reclaimList := σ.reclaimList.eraseP fun r => id = r.id }

section Enter

variable {u : UserContext}

@[simp] theorem objects_enter : ((σ.begin l).enter u).objects k = σ.objects k := by
  cases k <;> rfl

@[simp] theorem objectId_enter : ((σ.begin l).enter u).objectId a k = σ.objectId a k := by
  cases k <;> rfl

@[simp] theorem waiters_enter : ((σ.begin l).enter u).waiters a k = σ.waiters a k := by
  cases k <;> rfl

@[simp] theorem woken_enter : ((σ.begin l).enter u).woken a k = σ.woken a k := by
  rw [woken, waiters_enter, woken]

end Enter

/-- What waits for an object is part of what is blocked. -/
theorem blocked_dropObject (ha : a ∈ σ.objects k) (q : Pid) :
    (σ.dropObject a k).blocked q + (σ.waiters a k).count q = σ.blocked q := by
  cases k with
  | pipe =>
      have hsum := Table.sum_free ha fun x => x.pipeWaitList.count q
      simp only [blocked, dropObject, waiters]
      omega
  | lock =>
      have hsum := Table.sum_free ha fun x => x.lockWaitList.count q
      simp only [blocked, dropObject, waiters]
      omega
  | cvar =>
      have hsum := Table.sum_free ha fun x => x.cvarWaitList.count q
      simp only [blocked, dropObject, waiters]
      omega

/-! ## Destroying an object -/

/-- The loop of a `destroy` function in its `j`-th turn. -/
theorem wakeWaiting_ok (ps : List Pid) (j : ℕ) (hok : σ.mem.AllOk) :
    (wakeWaiting j ps σ).2 = { σ with
      mem := σ.mem.afterMallocs (ps.take ((ps.length + 2 - j) / 2)).length
      readyQueue := σ.readyQueue ++ ps.take ((ps.length + 2 - j) / 2)
      readied := σ.readied ++ ps.take ((ps.length + 2 - j) / 2) } := by
  induction ps generalizing j σ with
  | nil => simp [wakeWaiting, Mem.afterMallocs]
  | cons q ps ih =>
      unfold wakeWaiting
      split
      · rename_i hj
        have hturns : ((q :: ps).length + 2 - j) / 2 = (ps.length + 2 - (j + 1)) / 2 + 1 := by
          rw [List.length_cons]
          omega
        rw [readyInsert_ok hok, hturns]
        have hrest := ih (σ := { σ with
          readyQueue := σ.readyQueue ++ [q]
          mem := σ.mem.malloc.2
          readied := σ.readied ++ [q] }) (j + 1) hok.malloc
        rw [hrest, List.take_succ_cons, List.length_cons, Mem.afterMallocs]
        simp
      · rename_i hj
        have hturns : ((q :: ps).length + 2 - j) / 2 = 0 := by
          rw [List.length_cons]
          omega
        rw [hturns]
        simp [Mem.afterMallocs]

/-- A `destroy` function fails and changes nothing, or finds an object with the id. -/
theorem destroy_cases (σ : Kernel) (p : Pid) (id : Int) (k : Kind) :
    σ.destroy p id k = (error, σ) ∨ ∃ a ∈ σ.objects k, σ.objectId a k = id ∧
      σ.destroy p id k = (0, (wakeWaiting 1 (σ.waiters a k) σ).2.dropObject a k) := by
  cases k with
  | pipe =>
      change σ.destroyPipeInfo id = _ ∨ ∃ a ∈ σ.objects .pipe, _ ∧ σ.destroyPipeInfo id = _
      unfold destroyPipeInfo
      split
      · exact .inl rfl
      split
      · exact .inl rfl
      · rename_i a hfind
        have hid := Table.prop_of_find? hfind
        exact .inr ⟨a, Table.mem_of_find? hfind, of_decide_eq_true hid, rfl⟩
  | lock =>
      change σ.destroyLockInfo p id = _ ∨ ∃ a ∈ σ.objects .lock, _ ∧ σ.destroyLockInfo p id = _
      unfold destroyLockInfo
      split
      · exact .inl rfl
      split
      · exact .inl rfl
      · rename_i a hfind
        have hid := Table.prop_of_find? hfind
        exact .inr ⟨a, Table.mem_of_find? hfind, (of_decide_eq_true hid).1, rfl⟩
  | cvar =>
      change σ.destroyCvarInfo id = _ ∨ ∃ a ∈ σ.objects .cvar, _ ∧ σ.destroyCvarInfo id = _
      unfold destroyCvarInfo
      split
      · exact .inl rfl
      split
      · exact .inl rfl
      · rename_i a hfind
        have hid := Table.prop_of_find? hfind
        exact .inr ⟨a, Table.mem_of_find? hfind, of_decide_eq_true hid, rfl⟩

theorem dropObject_reclaimList (σ : Kernel) (a : ℕ) (k : Kind) :
    (σ.dropObject a k).reclaimList = σ.reclaimList := by
  cases k <;> rfl

/-- A Reclaim fails and changes nothing, or it destroys the object that the first record
with the id stands for. -/
theorem sysReclaim_cases (hok : σ.mem.AllOk) (h : σ.sysReclaim p = some (o, σ')) :
    (o = .ret error ∧ σ' = σ) ∨ o = .ret 0 ∧
      ∃ r a, σ.reclaimList.find? (fun r => (σ.reg 0).toInt = r.id) = some r ∧
        a ∈ σ.objects r.type ∧ σ.objectId a r.type = (σ.reg 0).toInt ∧
          σ' = σ.reclaimed a r.type (σ.reg 0).toInt := by
  unfold sysReclaim at h
  dsimp only at h
  split at h
  · obtain ⟨rfl, rfl⟩ := Prod.mk.inj (Option.some.inj h)
    exact .inl ⟨rfl, rfl⟩
  split at h
  · obtain ⟨rfl, rfl⟩ := Prod.mk.inj (Option.some.inj h)
    exact .inl ⟨rfl, rfl⟩
  rename_i r hfind
  rcases destroy_cases σ p (σ.reg 0).toInt r.type with herr | ⟨a, ha, hid, hdestroy⟩
  · rw [herr, if_pos (show error ≠ 0 by decide)] at h
    obtain ⟨rfl, rfl⟩ := Prod.mk.inj (Option.some.inj h)
    exact .inl ⟨rfl, rfl⟩
  · have hm := wakeWaiting_ok (σ.waiters a r.type) 1 hok
    rw [hdestroy, if_neg (by simp)] at h
    obtain ⟨rfl, rfl⟩ := Prod.mk.inj (Option.some.inj h)
    refine .inr ⟨rfl, r, a, hfind, ha, hid, ?_⟩
    dsimp only
    rw [dropObject_reclaimList, hm]
    rfl

/-! ## Processes that are in no list -/

/-- Process `q` is alive, but it does not run and is in no queue or waiting list. -/
structure Stranded (σ : Kernel) (q : Pid) : Prop where
  live : q ∈ σ.live
  named : 0 ≤ q ∧ q < σ.nextPid
  active : σ.activeProc ≠ some q
  queued : σ.queued q = 0

instance (σ : Kernel) (q : Pid) : Decidable (σ.Stranded q) :=
  decidable_of_iff (q ∈ σ.live ∧ (0 ≤ q ∧ q < σ.nextPid) ∧ σ.activeProc ≠ some q ∧
    σ.queued q = 0) ⟨fun h => ⟨h.1, h.2.1, h.2.2.1, h.2.2.2⟩,
      fun h => ⟨h.live, h.named, h.active, h.queued⟩⟩

namespace Stranded

theorem of_touches {vs : List View} (h : Stranded σ q) (ht : Touches vs σ σ')
    (hqueues : View.queues ∉ vs) (hpids : View.pids ∉ vs) : Stranded σ' q := by
  obtain ⟨hactive, -, -, -, -, hqueued⟩ := ht.same .queues hqueues
  obtain ⟨hnext, hlive⟩ := ht.same .pids hpids
  constructor
  · rw [hlive]
    exact h.live
  · rw [hnext]
    exact h.named
  · rw [hactive]
    exact h.active
  · rw [hqueued]
    exact h.queued

/-- Nothing that the kernel does takes up a process that is in no list. -/
theorem step (h : Stranded σ q) (hs : Steps σ l σ') : Stranded σ' q := by
  obtain ⟨hlive, hnext⟩ := live_step hs h.live h.active
  have hknown : Known (· ≠ q) σ := by
    constructor
    · rintro r hr rfl
      exact h.active hr
    · intro r hr
      refine .inr ?_
      rintro rfl
      exact absurd h.queued (Nat.ne_of_gt hr)
  have hknown' := hs.known hknown fun _ _ => (ne_of_lt h.named.2).symm
  constructor
  · exact hlive
  · exact ⟨h.named.1, h.named.2.trans_le hnext⟩
  · exact fun hact => hknown'.active q hact rfl
  · refine Nat.eq_zero_of_not_pos fun hpos => ?_
    rcases hknown'.queued q hpos with hnull | hne
    · have hnonneg := h.named.1
      rw [hnull] at hnonneg
      exact absurd hnonneg (by decide)
    · exact hne rfl

theorem run {C : Kernel → Label → Kernel → Prop} (h : Stranded σ q)
    (hr : Run Kernel.step C σ tr τ) : Stranded τ q :=
  hr.invariant (I := fun σ => Stranded σ q) h fun _ _ _ hinv hs _ => hinv.step (step_cases hs)

end Stranded

/-- The processes that a Reclaim does not make ready are left without a place. -/
theorem Placed.stranded {id : Int} (hinv : σ.Placed) (ha : a ∈ σ.objects k)
    (hq : q ∈ (σ.waiters a k).drop (σ.woken a k)) : Stranded (σ.reclaimed a k id) q := by
  have hwaits : (σ.waiters a k).count q =
      ((σ.waiters a k).take (σ.woken a k)).count q +
        ((σ.waiters a k).drop (σ.woken a k)).count q := by
    rw [← List.count_append, List.take_append_drop]
  have hleft := List.count_pos_iff.2 hq
  have hblocked := blocked_dropObject ha q
  have hone := hinv.occ_le_one q
  have hle := hinv.occ_le q
  unfold occ queued at hone hle
  have hlive : q ∈ σ.live := List.count_pos_iff.1 (by omega)
  have hactive : σ.activeProc ≠ some q := by
    intro hact
    rw [if_pos hact] at hone
    omega
  have hfields : (σ.reclaimed a k id).live = σ.live ∧
      (σ.reclaimed a k id).nextPid = σ.nextPid ∧
        (σ.reclaimed a k id).activeProc = σ.activeProc ∧
          (σ.reclaimed a k id).readyQueue =
            σ.readyQueue ++ (σ.waiters a k).take (σ.woken a k) ∧
              (σ.reclaimed a k id).blocked q = (σ.dropObject a k).blocked q := by
    cases k <;> exact ⟨rfl, rfl, rfl, rfl, rfl⟩
  obtain ⟨hlive', hnext, hactive', hready, hblocked'⟩ := hfields
  constructor
  · rwa [hlive']
  · rw [hnext]
    exact hinv.bound q hlive
  · rwa [hactive']
  · unfold Kernel.queued
    rw [hready, hblocked', List.count_append]
    omega

/-- In every run in which allocations succeed and idle only pauses, a Reclaim that returns 0
makes the first half of the processes that wait for the object ready, rounded up and in
order, takes the object and its record out of their lists and changes nothing else; and
every other process that waited stays alive for ever and is never ready or running again,
whatever happens then. -/
theorem run_reclaim_strands (hok : ∀ a ∈ b.procMallocs, a.ok = true)
    (h₀ : kernelStart b = some σ₀)
    (h : Run Kernel.step (fun σ l σ' => σ.Allocates l σ' ∧ σ.IdlePauses l) σ₀ tr σ)
    (hs : σ.step l = some σ') (ha : σ.Allocates l σ') (hr : l.call = some .reclaim)
    (ho : σ.outcome l = some (.ret 0)) :
    ∃ r a u, σ.reclaimList.find? (fun r => l.arg 0 = r.id) = some r ∧
      a ∈ σ.objects r.type ∧ σ.objectId a r.type = l.arg 0 ∧ l.event = .trap u ∧
      σ' = finish (.ret 0, ((σ.begin l).enter u).reclaimed a r.type (l.arg 0)) ∧
      ∀ q ∈ (σ.waiters a r.type).drop (σ.woken a r.type), ∀ C tr' τ,
        Run Kernel.step C σ' tr' τ → Stranded τ q := by
  obtain ⟨u, p, o, τ, hl, -, -, hcall, rfl, ho'⟩ := (step_cases hs).of_call hr
  obtain rfl := Option.some.inj (ho'.symm.trans ho)
  have hinv := (stacked_of_run hok h₀ h).1
  have harg : l.arg 0 = (u.regs 0).toInt := by simp [Label.arg, hl]
  have hinv' : ((σ.begin l).enter u).Placed :=
    ⟨hinv.occ_le, hinv.nodup, hinv.nextPid, hinv.bound, hinv.active, hinv.idleReady, hinv.idleAt,
      hinv.fell⟩
  obtain ⟨hfails, -⟩ | ⟨-, r, a, hfind, hmem, hid, rfl⟩ :=
    sysReclaim_cases (σ := (σ.begin l).enter u) (p := p) ha.begin hcall
  · exact absurd hfails (by simp [error])
  rw [harg]
  refine ⟨r, a, u, hfind, by simpa using hmem, ?_, hl, rfl, fun q hq C tr' τ hrun => ?_⟩
  · rw [objectId_enter] at hid
    exact hid
  · rw [← waiters_enter (u := u) (l := l), ← woken_enter (u := u) (l := l)] at hq
    have hstranded :
        Stranded (((σ.begin l).enter u).reclaimed a r.type (u.regs 0).toInt) q :=
      hinv'.stranded hmem hq
    exact Stranded.run (hstranded.of_touches (finish_touches _ _) (by simp) (by simp)) hrun

/-- The theorem on a run in which init destroys a pipe that its two children read from. -/
theorem run_reclaim_strands_children : ∃ σ₀ tr σ σ', kernelStart smallBoot = some σ₀ ∧
    Run Kernel.step (fun σ l σ' => σ.Allocates l σ' ∧ σ.IdlePauses l) σ₀ tr σ ∧
    ((σ.pipes.cell 0).pipeWaitList = [2, 3] ∧ σ.reclaimList = [⟨1, .pipe⟩]) ∧
    ∃ r a u, σ.reclaimList.find? (fun r => 1 = r.id) = some r ∧
      a ∈ σ.objects r.type ∧ σ.objectId a r.type = 1 ∧
      (smallCall .reclaim 1 0 0).event = .trap u ∧
      σ' = finish (.ret 0, ((σ.begin (smallCall .reclaim 1 0 0)).enter u).reclaimed a r.type 1) ∧
      ∀ q ∈ (σ.waiters a r.type).drop (σ.woken a r.type), ∀ C tr' τ,
        Run Kernel.step C σ' tr' τ → Stranded τ q := by
  obtain ⟨σ₀, tr, σ, σ', h₀, hr, hr', hP, hret⟩ := bootExec_move (b := smallBoot)
    (C := fun σ l σ' => σ.Allocates l σ' ∧ σ.IdlePauses l)
    (P := fun σ _ => ((σ.pipes.cell 0).pipeWaitList = [2, 3] ∧ σ.reclaimList = [⟨1, .pipe⟩]) ∧
      σ.outcome (smallCall .reclaim 1 0 0) = some (.ret 0))
    (t := [smallCall .pipeInit vmem1Base 0 0, smallCall .fork 0 0 0, smallCall .fork 0 0 0,
      clockTick, resumption, smallCall .pipeRead 1 vmem1Base 1, resumption,
      smallCall .pipeRead 1 vmem1Base 1, resumption])
    (l := smallCall .reclaim 1 0 0)
    (by decide +kernel)
  obtain ⟨-, hs, ⟨ha, -⟩, -⟩ := hr'.last
  exact ⟨σ₀, tr, σ, σ', h₀, hr, hP, run_reclaim_strands (by simp [smallBoot]) h₀ hr hs ha rfl hret⟩

end Kernel

end Yalnix
