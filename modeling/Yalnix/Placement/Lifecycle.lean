import Yalnix.Footprint.Step
import Yalnix.Placement.Queue

/-!
# Fork, Exit and Reclaim when allocations succeed

`Forks` and `Exits` say what Fork and Exit leave of the queues and of the process
tree, Exit up to the point where it blocks for good. A Reclaim can take
processes out of every queue, so it is only known to put none into a second one.
-/

namespace Yalnix

/-! ## Fork -/

/-- Process `p` gets the child `σ.nextPid`, which is ready. -/
structure Forks (σ σ' : Kernel) (p : Pid) : Prop where
  queues : Requeues (one σ.nextPid) σ σ'
  nextPid : σ'.nextPid = σ.nextPid + 1
  room : σ.nextPid < maxProc
  live : σ'.live = σ.live ++ [σ.nextPid]
  family : σ'.family =
    Function.update (Function.update σ.family σ.nextPid { ppid := p, children := [] }) p
      { σ.family p with children := (σ.family p).children ++ [σ.nextPid] }
  deadList : σ'.deadList = σ.deadList
  waitList : σ'.waitList = σ.waitList

namespace Kernel

variable {σ σ' : Kernel} {p : Pid} {o : Outcome}

theorem createChild_ok (h : σ.mem.AllOk) (p : Pid) (block : Malloc) :
    (σ.createChild p block).family =
        Function.update (Function.update σ.family σ.nextPid { ppid := p, children := [] }) p
          { σ.family p with children := (σ.family p).children ++ [σ.nextPid] } ∧
      (σ.createChild p block).mem = σ.mem.malloc.2 := by
  unfold createChild
  dsimp only
  rw [listInsert_last_ok _ _ h]
  exact ⟨rfl, rfl⟩

theorem initProcKernel_mem {cur : Pid} (h : σ.initProcKernel cur = some σ') :
    σ.mem.refused ≤ σ'.mem.refused ∧ (σ.mem.AllOk → σ'.mem.AllOk) := by
  obtain ⟨r, hr, rfl⟩ := Option.map_eq_some_iff.1 h
  exact ⟨Mem.le_refused_initKStack hr, fun hok => hok.initKStack hr⟩

/-- A Fork in which no allocation fails. -/
theorem sysFork_ok (hok : σ.mem.AllOk) (h : σ.sysFork p = some (o, σ'))
    (href : σ'.mem.refused = σ.mem.refused) : o = .ret σ.nextPid ∧ Forks σ σ' p := by
  have hblock : σ.malloc.2.mem.AllOk := hok.malloc
  obtain ⟨hfamily, hmem⟩ := createChild_ok hblock p σ.malloc.1
  have hcreate := createChild_touches σ.malloc.2 p σ.malloc.1
  have hchild : (σ.malloc.2.createChild p σ.malloc.1).mem.AllOk := by
    rw [hmem]
    exact hblock.malloc
  have hle : σ.mem.refused ≤ (σ.malloc.2.createChild p σ.malloc.1).malloc.2.mem.refused := by
    refine (Mem.le_refused_malloc σ.mem).trans ((Mem.le_refused_malloc _).trans ?_)
    refine le_trans (le_of_eq ?_) (Mem.le_refused_malloc _)
    rw [hmem]
    rfl
  unfold sysFork at h
  dsimp only at h
  rw [if_pos (show σ.malloc.1.ok = true from hok.ok)] at h
  split at h
  · exact absurd h (by simp)
  rename_i hroom
  rw [if_pos (show (σ.malloc.2.createChild p σ.malloc.1).malloc.1.ok = true from hchild.ok)] at h
  obtain ⟨τ, hτ, h⟩ := Option.map_eq_some_iff.1 h
  obtain ⟨hle', hok'⟩ := initProcKernel_mem hτ
  have hτok : τ.mem.AllOk := hok' hchild.malloc
  -- the tree and the queues of the state in which the child has been created
  have hstack := initProcKernel_touches_frames hτ
  obtain ⟨hnext, hlive⟩ := hstack.same .pids (by simp)
  obtain ⟨hfam, hdead, hwait⟩ := hstack.same .tree (by simp)
  have hqueues : Touches [.contexts, .users, .pids, .tree, .frames, .states, .buffers] σ τ :=
    (malloc_touches σ).after (hcreate.trans ((malloc_touches _).after
      (((setPcb_touches_users (by rfl) (by rfl) (by rfl) (by rfl) (by rfl)).seq hstack).mono
        (by simp))))
  cases hc : (τ.copySpace p σ.nextPid).1 with
  | false =>
      have hlt := Mem.refused_copyPages (m := τ.mem) hc
      rw [hc] at h
      obtain ⟨-, rfl⟩ := Prod.mk.inj h
      exact absurd href (ne_of_gt (lt_of_le_of_lt (hle.trans hle') hlt))
  | true =>
      rw [hc] at h
      obtain ⟨rfl, rfl⟩ := Prod.mk.inj h
      have hcopy : (τ.copySpace p σ.nextPid).2.mem.AllOk := hτok.copyPages _ _ _ _
      have htouch := hqueues.seq (copySpace_touches τ p σ.nextPid)
      have hq := Requeues.after htouch (by simp) (Requeues.readyInsert hcopy σ.nextPid)
      exact ⟨rfl, hq, hnext, not_le.1 hroom, hlive, hfam.trans hfamily, hdead, hwait⟩

/-! ## Exit -/

/-- The links of all processes once those that Exit takes for the children of `p` have lost
their parent. -/
def bereaved (σ : Kernel) (p : Pid) (q : Pid) : Family :=
  if q ∈ σ.exitWalk p then { σ.family q with ppid := -1 } else σ.family q

/-- The links once the parent of `p`, if it has one, has lost the child `p`. -/
def mourned (family : Pid → Family) (p : Pid) : Pid → Family :=
  if (family p).ppid = -1 then family
  else Function.update family (family p).ppid { family (family p).ppid with
    children := (family (family p).ppid).children.erase p }

end Kernel

/-- Process `p` has left the tree and the queues, its parent has been told of it,
and the state is the one in which `sys_Exit` calls `normal_schedule`. -/
structure Exits (σ τ : Kernel) (p : Pid) (status : Word) : Prop where
  active : τ.activeProc = none
  fell : τ.fellThrough = σ.fellThrough
  flow : Feeds σ τ
  queued : ∀ q, τ.queued q = σ.queued q
  ok : τ.mem.AllOk
  nextPid : τ.nextPid = σ.nextPid
  live : τ.live = σ.live.erase p
  family : τ.family = Kernel.mourned (σ.bereaved p) p
  deadList : τ.deadList = σ.deadList ++
    if (σ.bereaved p p).ppid = -1 then [] else [some ⟨(σ.bereaved p p).ppid, p, status⟩]
  waitList : τ.waitList = σ.waitList.erase (σ.bereaved p p).ppid
  kctxt : ∀ q, (τ.pcb q).kctxt = (σ.pcb q).kctxt

namespace Kernel

variable {σ σ' : Kernel} {p : Pid} {o : Outcome}

theorem getPcb_some {c c' : Pid} (h : σ.getPcb c = some c') : c = c' := by
  unfold getPcb at h
  split at h
  · exact absurd h (by simp)
  split at h
  · exact Option.some.inj h
  · exact absurd h (by simp)

theorem orphan_eq {cs : List Pid} {family family' : Pid → Family}
    (h : σ.orphan cs family = some family') (q : Pid) :
    family' q = if q ∈ cs then { family q with ppid := -1 } else family q := by
  induction cs generalizing family with
  | nil =>
      obtain rfl := Option.some.inj h
      simp
  | cons c cs ih =>
      obtain ⟨c', hc, h⟩ := Option.bind_eq_some_iff.1 h
      obtain rfl := getPcb_some hc
      rw [ih h]
      by_cases hq : q = c
      · subst hq
        simp
      · simp [hq]

/-- What the parent is told when the record can be allocated. -/
theorem tellParent_ok (hok : σ.mem.AllOk) {status : Word} {rc : Int}
    (h : σ.tellParent p status = some (rc, σ')) :
    rc = 0 ∧ σ'.mem.AllOk ∧ σ'.family = mourned σ.family p ∧
      σ'.deadList = σ.deadList ++
        (if (σ.family p).ppid = -1 then [] else [some ⟨(σ.family p).ppid, p, status⟩]) ∧
      σ'.waitList = σ.waitList := by
  have htouch := tellParent_touches h
  have hok' := htouch.allOk (by simp) hok
  unfold tellParent at h
  dsimp only at h
  split at h
  · rename_i hp
    obtain ⟨rfl, rfl⟩ := Prod.mk.inj (Option.some.inj h)
    exact ⟨rfl, hok, by rw [mourned, if_pos hp], by rw [if_pos hp, List.append_nil], rfl⟩
  · rename_i hp
    rw [insertDeadList_ok hok] at h
    rw [if_neg (by simp)] at h
    obtain ⟨p1, hp1, h⟩ := Option.map_eq_some_iff.1 h
    obtain ⟨rfl, rfl⟩ := Prod.mk.inj h
    obtain rfl := getPcb_some hp1
    exact ⟨rfl, hok', by rw [mourned, if_neg hp]; rfl, by rw [if_neg hp]; rfl, rfl⟩

/-- The parent leaves `wait_list` for `ready_queue`. -/
theorem wakeParent_ok (hok : σ.mem.AllOk) (ppid : Pid) :
    Requeues 0 σ (σ.wakeParent ppid) ∧
      (σ.wakeParent ppid).waitList = σ.waitList.erase ppid := by
  unfold wakeParent
  split
  · rename_i hmem
    refine ⟨Requeues.wake (by exact hok) rfl rfl rfl rfl rfl fun r => ?_, rfl⟩
    have hcount := count_erase_one hmem r
    simp only [blocked]
    omega
  · rename_i hmem
    exact ⟨.refl hok, (List.erase_of_not_mem hmem).symm⟩

theorem freeSpace_ok (hok : σ.mem.AllOk) (p : Pid) : (σ.freeSpace p).mem.AllOk :=
  (hok.freePages _ _).freePages _ _

theorem mourned_ppid (family : Pid → Family) (p q : Pid) :
    (mourned family p q).ppid = (family q).ppid := by
  unfold mourned
  split
  · rfl
  · by_cases hq : q = (family p).ppid
    · subst hq
      simp
    · simp [hq]

/-- An Exit in which no call of `malloc` fails gets to `normal_schedule`. -/
theorem sysExit_ok (hok : σ.mem.AllOk) {status : Word}
    (h : σ.sysExit p status = some (o, σ')) :
    ∃ τ, Exits σ τ p status ∧
      τ.block .kernelStart (fun σ => some (.ret 0, σ)) = some (o, σ') := by
  unfold sysExit at h
  obtain ⟨family, horphan, h⟩ := Option.bind_eq_some_iff.1 h
  obtain rfl : σ.bereaved p = family := funext fun q => (orphan_eq horphan q).symm
  obtain ⟨⟨rc, τ⟩, hτ, h⟩ := Option.bind_eq_some_iff.1 h
  have htell := (setFamily_touches σ (σ.bereaved p)).trans (tellParent_touches hτ)
  obtain ⟨rfl, hτok, hfamily, hdead, hwait⟩ := tellParent_ok (by exact hok) hτ
  rw [if_neg (not_not.2 rfl)] at h
  have hfree := freeSpace_touches τ p
  have hppid : (τ.family p).ppid = (σ.bereaved p p).ppid := by
    rw [hfamily]
    exact mourned_ppid ..
  obtain ⟨hq, hw⟩ := wakeParent_ok (freeSpace_ok hτok p) (τ.family p).ppid
  have hwake := wakeParent_touches (τ.freeSpace p) (τ.family p).ppid
  have hbefore : Requeues 0 σ ((τ.freeSpace p).wakeParent (τ.family p).ppid) :=
    .after ((htell.mono (by simp)).trans (hfree.mono (w := [.tree, .frames]) (by simp)))
      (by simp) hq
  have hall := ((htell.mono (by simp)).trans (hfree.mono (w := [.queues, .tree, .frames])
    (by simp))).trans (hwake.mono (by simp))
  obtain ⟨hnext, hlive⟩ := hall.same .pids (by simp)
  have htree : ((τ.freeSpace p).wakeParent (τ.family p).ppid).family = τ.family ∧
      ((τ.freeSpace p).wakeParent (τ.family p).ppid).deadList = τ.deadList := by
    unfold wakeParent
    split <;> exact ⟨rfl, rfl⟩
  refine ⟨_, ?_, h⟩
  exact {
    active := rfl
    fell := hbefore.fell
    flow := hbefore.flow.trans (.same rfl rfl rfl)
    queued := hbefore.queued
    ok := hbefore.ok
    nextPid := hnext
    live := congrArg (·.erase p) hlive
    family := htree.1.trans hfamily
    deadList := htree.2.trans hdead
    waitList := by
      refine hw.trans ?_
      rw [hppid, show (τ.freeSpace p).waitList = τ.waitList from rfl, hwait]
    kctxt := (hall.same .contexts (by simp)).2 }

end Kernel

/-! ## Reclaim -/

/-- The active process is the same, no ready process is lost, and no process gets
into a queue that it had not been in. -/
structure Drops (σ τ : Kernel) : Prop where
  active : τ.activeProc = σ.activeProc
  fell : τ.fellThrough = σ.fellThrough
  flow : Feeds σ τ
  queued : ∀ q, τ.queued q ≤ σ.queued q

namespace Drops

variable {σ τ : Kernel}

theorem of_requeues (h : Requeues 0 σ τ) : Drops σ τ :=
  ⟨h.active, h.fell, h.flow, fun q => (h.queued q).le⟩

end Drops

namespace Kernel

variable {σ σ' : Kernel} {p : Pid} {o : Outcome}

/-- The processes that a `destroy` function makes ready and those that it leaves
are the waiting ones. -/
theorem wakeWaiting_requeues (h : σ.mem.AllOk) (j : ℕ) (l : List Pid) :
    ∃ d, Requeues d σ (wakeWaiting j l σ).2 ∧
      ∀ q, d q + (wakeWaiting j l σ).1.count q = l.count q := by
  induction l generalizing j σ with
  | nil => exact ⟨0, .refl h, fun q => by simp [wakeWaiting]⟩
  | cons p l ih =>
      unfold wakeWaiting
      split
      · have hp := Requeues.readyInsert h p
        obtain ⟨d, hd, hcount⟩ := ih hp.ok (j + 1)
        refine ⟨_, hp.trans hd, fun q => ?_⟩
        have hq := hcount q
        rw [count_cons_one, Pi.add_apply]
        omega
      · exact ⟨0, .refl h, fun q => by simp⟩

/-- Waking processes leaves the objects to its caller. -/
theorem wakeWaiting_objects (j : ℕ) (l : List Pid) (σ : Kernel) :
    (wakeWaiting j l σ).2.pipes = σ.pipes ∧ (wakeWaiting j l σ).2.locks = σ.locks ∧
      (wakeWaiting j l σ).2.cvars = σ.cvars ∧
        (wakeWaiting j l σ).2.reclaimList = σ.reclaimList := by
  induction l generalizing j σ with
  | nil => exact ⟨rfl, rfl, rfl, rfl⟩
  | cons p l ih =>
      unfold wakeWaiting
      split
      · exact ih (j + 1) _
      · exact ⟨rfl, rfl, rfl, rfl⟩

/-- A `destroy` function takes one object out of one table at most. -/
theorem destroy_frees (σ : Kernel) (p : Pid) (id : Int) (type : Kind) :
    σ.pipes.Frees (σ.destroy p id type).2.pipes ∧ σ.locks.Frees (σ.destroy p id type).2.locks ∧
      σ.cvars.Frees (σ.destroy p id type).2.cvars := by
  have hwake := fun l => wakeWaiting_objects 1 l σ
  cases type with
  | pipe =>
      change σ.pipes.Frees (destroyPipeInfo σ id).2.pipes ∧
        σ.locks.Frees (destroyPipeInfo σ id).2.locks ∧ σ.cvars.Frees (destroyPipeInfo σ id).2.cvars
      unfold destroyPipeInfo
      split
      · exact ⟨.inl rfl, .inl rfl, .inl rfl⟩
      split
      · exact ⟨.inl rfl, .inl rfl, .inl rfl⟩
      · rename_i b _
        obtain ⟨hpipes, hlocks, hcvars, -⟩ := hwake (σ.pipes.cell b).pipeWaitList
        exact ⟨.inr ⟨b, congrArg (fun t : Table PipeInfo => t.free b) hpipes⟩, .inl hlocks,
          .inl hcvars⟩
  | lock =>
      change σ.pipes.Frees (destroyLockInfo σ p id).2.pipes ∧
        σ.locks.Frees (destroyLockInfo σ p id).2.locks ∧
          σ.cvars.Frees (destroyLockInfo σ p id).2.cvars
      unfold destroyLockInfo
      split
      · exact ⟨.inl rfl, .inl rfl, .inl rfl⟩
      split
      · exact ⟨.inl rfl, .inl rfl, .inl rfl⟩
      · rename_i b _
        obtain ⟨hpipes, hlocks, hcvars, -⟩ := hwake (σ.locks.cell b).lockWaitList
        exact ⟨.inl hpipes, .inr ⟨b, congrArg (fun t : Table LockInfo => t.free b) hlocks⟩,
          .inl hcvars⟩
  | cvar =>
      change σ.pipes.Frees (destroyCvarInfo σ id).2.pipes ∧
        σ.locks.Frees (destroyCvarInfo σ id).2.locks ∧ σ.cvars.Frees (destroyCvarInfo σ id).2.cvars
      unfold destroyCvarInfo
      split
      · exact ⟨.inl rfl, .inl rfl, .inl rfl⟩
      split
      · exact ⟨.inl rfl, .inl rfl, .inl rfl⟩
      · rename_i b _
        obtain ⟨hpipes, hlocks, hcvars, -⟩ := hwake (σ.cvars.cell b).cvarWaitList
        exact ⟨.inl hpipes, .inl hlocks,
          .inr ⟨b, congrArg (fun t : Table CvarInfo => t.free b) hcvars⟩⟩

/-- Reclaim takes one object out of one table at most. -/
theorem sysReclaim_frees (h : σ.sysReclaim p = some (o, σ')) :
    σ.pipes.Frees σ'.pipes ∧ σ.locks.Frees σ'.locks ∧ σ.cvars.Frees σ'.cvars := by
  unfold sysReclaim at h
  dsimp only at h
  split at h
  · obtain ⟨-, rfl⟩ := Prod.mk.inj (Option.some.inj h)
    exact ⟨.inl rfl, .inl rfl, .inl rfl⟩
  split at h
  · obtain ⟨-, rfl⟩ := Prod.mk.inj (Option.some.inj h)
    exact ⟨.inl rfl, .inl rfl, .inl rfl⟩
  rename_i r _
  have hd := destroy_frees σ p (σ.reg 0).toInt r.type
  split at h
  · obtain ⟨-, rfl⟩ := Prod.mk.inj (Option.some.inj h)
    exact hd
  · obtain ⟨-, rfl⟩ := Prod.mk.inj (Option.some.inj h)
    exact hd

theorem destroy_drops (h : σ.mem.AllOk) (p : Pid) (id : Int) (type : Kind) :
    Drops σ (σ.destroy p id type).2 := by
  have hwake : ∀ l, ∃ d, Requeues d σ (wakeWaiting 1 l σ).2 ∧ ∀ q, d q ≤ l.count q := by
    intro l
    obtain ⟨d, hd, hcount⟩ := wakeWaiting_requeues h 1 l
    exact ⟨d, hd, fun q => by have := hcount q; omega⟩
  have hnone : Drops σ σ := .of_requeues (.refl h)
  cases type with
  | pipe =>
      change Drops σ (destroyPipeInfo σ id).2
      unfold destroyPipeInfo
      split
      · exact hnone
      split
      · exact hnone
      rename_i a hfind
      obtain ⟨d, hd, hle⟩ := hwake (σ.pipes.cell a).pipeWaitList
      obtain ⟨hpipes, -, -, -⟩ := wakeWaiting_objects 1 (σ.pipes.cell a).pipeWaitList σ
      refine ⟨hd.active, hd.fell, hd.flow.trans (.same rfl rfl rfl), fun q => ?_⟩
      have hq := hd.queued q
      have hc := hle q
      have hsum := Table.sum_free (Table.mem_of_find? hfind) fun x => x.pipeWaitList.count q
      simp only [queued, blocked, hpipes] at hq ⊢
      omega
  | lock =>
      change Drops σ (destroyLockInfo σ p id).2
      unfold destroyLockInfo
      split
      · exact hnone
      split
      · exact hnone
      rename_i a hfind
      obtain ⟨d, hd, hle⟩ := hwake (σ.locks.cell a).lockWaitList
      obtain ⟨-, hlocks, -, -⟩ := wakeWaiting_objects 1 (σ.locks.cell a).lockWaitList σ
      refine ⟨hd.active, hd.fell, hd.flow.trans (.same rfl rfl rfl), fun q => ?_⟩
      have hq := hd.queued q
      have hc := hle q
      have hsum := Table.sum_free (Table.mem_of_find? hfind) fun x => x.lockWaitList.count q
      simp only [queued, blocked, hlocks] at hq ⊢
      omega
  | cvar =>
      change Drops σ (destroyCvarInfo σ id).2
      unfold destroyCvarInfo
      split
      · exact hnone
      split
      · exact hnone
      rename_i a hfind
      obtain ⟨d, hd, hle⟩ := hwake (σ.cvars.cell a).cvarWaitList
      obtain ⟨-, -, hcvars, -⟩ := wakeWaiting_objects 1 (σ.cvars.cell a).cvarWaitList σ
      refine ⟨hd.active, hd.fell, hd.flow.trans (.same rfl rfl rfl), fun q => ?_⟩
      have hq := hd.queued q
      have hc := hle q
      have hsum := Table.sum_free (Table.mem_of_find? hfind) fun x => x.cvarWaitList.count q
      simp only [queued, blocked, hcvars] at hq ⊢
      omega

theorem sysReclaim_drops (hok : σ.mem.AllOk) (h : σ.sysReclaim p = some (o, σ')) :
    Drops σ σ' := by
  have hnone : Drops σ σ := .of_requeues (.refl hok)
  unfold sysReclaim at h
  dsimp only at h
  split at h
  · exact (Prod.mk.inj (Option.some.inj h)).2 ▸ hnone
  split at h
  · exact (Prod.mk.inj (Option.some.inj h)).2 ▸ hnone
  rename_i r _
  have hd := destroy_drops hok p (σ.reg 0).toInt r.type
  split at h
  · exact (Prod.mk.inj (Option.some.inj h)).2 ▸ hd
  · obtain ⟨-, rfl⟩ := Prod.mk.inj (Option.some.inj h)
    exact ⟨hd.active, hd.fell, hd.flow.trans (.same rfl rfl rfl), hd.queued⟩

end Kernel

end Yalnix
