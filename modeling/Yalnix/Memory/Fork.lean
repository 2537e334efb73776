import Yalnix.Memory.Frames
import Yalnix.Runs

/-!
# When Fork leaves nothing behind

`sys_Fork` links the child into the process table and the parent's `children`
before it knows whether the rest can be allocated. The first part follows a Fork
through its allocations: `sysFork_enough` is the Fork that gets all of them and
`Forked` the state it leaves, and the other lemmas are the ways in which it can
fail. The second part says when a Fork is all or nothing.
-/

namespace Yalnix

/-- The pages of a user page table that are valid. -/
def Space.validPages (x : Space) : List Int := userPages.filter fun i => (x.uPageTable i).valid

/-- The frames of these pages. -/
def Space.userFrames (x : Space) : List ℕ := x.validPages.map fun i => (x.uPageTable i).pfn

theorem Space.mem_validPages {x : Space} {i : Int} :
    i ∈ x.validPages ↔ inTable i ∧ (x.uPageTable i).valid = true := by
  rw [validPages, List.mem_filter, inTable_userPages]

theorem Space.nodup_validPages (x : Space) : x.validPages.Nodup :=
  (nodup_pages_up 0 128).filter _

namespace Kernel

/-! ## The allocations of a Fork -/

/-- The memory after the calls of `malloc` for a PCB, for a node of `children` and for the
head of the child's own list. -/
def forkMem (σ : Kernel) : Mem := σ.mem.malloc.2.malloc.2.malloc.2

/-- Whether the head of the child's list of children can be had. -/
def forkHead (σ : Kernel) : Bool := σ.mem.malloc.2.malloc.2.malloc.1.ok

/-- The state in which `sys_Fork` calls `KernelContextSwitch`. -/
def forkChild (σ : Kernel) (p : Pid) : Kernel :=
  let τ := (σ.malloc.2.createChild p σ.malloc.1).malloc.2
  τ.setPcb σ.nextPid { τ.pcb σ.nextPid with uctxt := τ.uContext.setRet 0 }

variable {σ σ' τ : Kernel} {p : Pid} {o : Outcome}

theorem createChild_mem (σ : Kernel) (p : Pid) (block : Malloc) :
    (σ.createChild p block).mem = σ.mem.malloc.2 := by
  unfold createChild
  dsimp only
  rw [listInsert_last]
  split <;> rfl

theorem forkHead_eq (σ : Kernel) (p : Pid) :
    (σ.malloc.2.createChild p σ.malloc.1).malloc.1.ok = σ.forkHead := by
  change ((σ.malloc.2.createChild p σ.malloc.1).mem.malloc).1.ok = _
  rw [createChild_mem]
  rfl

@[simp] theorem forkChild_mem (σ : Kernel) (p : Pid) : (σ.forkChild p).mem = σ.forkMem := by
  change ((σ.malloc.2.createChild p σ.malloc.1).mem.malloc).2 = _
  rw [createChild_mem]
  rfl

theorem sysFork_noBlock (h : σ.mem.malloc.1.ok = false) :
    σ.sysFork p = some (.ret error, σ.malloc.2) := by
  unfold sysFork
  dsimp only
  rw [if_neg (by simpa [malloc] using h)]

theorem sysFork_noRoom (hblock : σ.mem.malloc.1.ok = true) (h : maxProc ≤ σ.nextPid) :
    σ.sysFork p = none := by
  unfold sysFork
  dsimp only
  rw [if_pos (show σ.malloc.1.ok = true from hblock), if_pos h]

theorem sysFork_noHead (hblock : σ.mem.malloc.1.ok = true) (hroom : σ.nextPid < maxProc)
    (h : σ.forkHead = false) : σ.sysFork p =
      some (.ret error, (σ.malloc.2.createChild p σ.malloc.1).malloc.2) := by
  rw [← forkHead_eq σ p] at h
  unfold sysFork
  dsimp only
  rw [if_pos (show σ.malloc.1.ok = true from hblock), if_neg (not_le.2 hroom), if_neg (by simp [h])]

/-- A Fork that has its kernel memory goes on to take frames. -/
theorem sysFork_frames (hblock : σ.mem.malloc.1.ok = true) (hroom : σ.nextPid < maxProc)
    (hhead : σ.forkHead = true) : σ.sysFork p =
      ((σ.forkChild p).initProcKernel σ.nextPid).map fun τ =>
        if (τ.copySpace p σ.nextPid).1 then
          (.ret σ.nextPid, ((τ.copySpace p σ.nextPid).2.readyInsert σ.nextPid).2)
        else (.ret error, (τ.copySpace p σ.nextPid).2) := by
  rw [← forkHead_eq σ p] at hhead
  unfold sysFork
  dsimp only
  rw [if_pos (show σ.malloc.1.ok = true from hblock), if_neg (not_le.2 hroom), if_pos hhead]
  rfl

/-! ## The frames of a Fork -/

theorem initProcKernel_enough (cur : Pid) (h : 2 ≤ σ.mem.supply.length) :
    σ.initProcKernel cur = some { σ with
      mem := σ.mem.taken 2
      pcb := Function.update σ.pcb cur { σ.pcb cur with kctxt := .kernelStart }
      space := Function.update σ.space cur { σ.space cur with
        kStackPt := assign (σ.space cur).kStackPt (pages 0 1 2) (σ.mem.supply.map Pte.rw) } } := by
  unfold initProcKernel
  rw [initKStack_enough (by simpa using h)]
  simp

theorem initProcKernel_short {cur : Pid} (h : σ.mem.supply.length < 2) :
    σ.initProcKernel cur = none := by
  unfold initProcKernel
  rw [initKStack_short (by simpa using h)]
  rfl

/-- The frames that a Fork of `p` takes: two for the kernel stack, and one for each page. -/
def forkFrames (σ : Kernel) (p : Pid) : ℕ := 2 + (σ.space p).validPages.length

/-- The state of a Fork of `p` that has all its frames, before the child is made ready. -/
structure Forked (σ : Kernel) (p : Pid) (τ : Kernel) : Prop where
  mem : τ.mem = σ.forkMem.taken (σ.forkFrames p)
  phys : τ.phys = copyFrames (σ.space p).uPageTable (σ.space p).validPages
    (σ.forkMem.supply.drop 2) σ.phys
  space : ∀ q, q ≠ σ.nextPid → τ.space q = σ.space q
  child : τ.space σ.nextPid =
    { uPageTable := assign (fun _ => {}) (σ.space p).validPages
        (List.zipWith (copiedEntry (σ.space p).uPageTable) (σ.space p).validPages
          (σ.forkMem.supply.drop 2))
      kStackPt := assign (fun i => σ.malloc.1.fill (userPagetableSize + i)) (pages 0 1 2)
        (σ.forkMem.supply.map Pte.rw)
      nextHeapPn := (σ.space p).nextHeapPn
      nextStackPn := (σ.space p).nextStackPn }
  pcb : ∀ q, q ≠ σ.nextPid → τ.pcb q = σ.pcb q
  context : τ.pcb σ.nextPid = { uctxt := σ.uContext.setRet 0 }
  family : τ.family = (σ.malloc.2.createChild p σ.malloc.1).family
  live : τ.live = σ.live ++ [σ.nextPid]
  nextPid : τ.nextPid = σ.nextPid + 1
  queue : τ.readyQueue = σ.readyQueue

/-- The state in which the address space is copied. -/
def forkStack (σ : Kernel) (p : Pid) : Kernel :=
  { σ.forkChild p with
    mem := σ.forkMem.taken 2
    pcb := Function.update (σ.forkChild p).pcb σ.nextPid
      { (σ.forkChild p).pcb σ.nextPid with kctxt := .kernelStart }
    space := Function.update (σ.forkChild p).space σ.nextPid
      { (σ.forkChild p).space σ.nextPid with
        kStackPt := assign ((σ.forkChild p).space σ.nextPid).kStackPt (pages 0 1 2)
          (σ.forkMem.supply.map Pte.rw) } }

theorem sysFork_copies (hblock : σ.mem.malloc.1.ok = true) (hroom : σ.nextPid < maxProc)
    (hhead : σ.forkHead = true) (h : 2 ≤ σ.forkMem.supply.length) : σ.sysFork p =
      some (if ((σ.forkStack p).copySpace p σ.nextPid).1 then
          (.ret σ.nextPid, (((σ.forkStack p).copySpace p σ.nextPid).2.readyInsert σ.nextPid).2)
        else (.ret error, ((σ.forkStack p).copySpace p σ.nextPid).2)) := by
  have hstack := initProcKernel_enough (σ := σ.forkChild p) σ.nextPid (by simpa using h)
  rw [forkChild_mem] at hstack
  rw [sysFork_frames hblock hroom hhead, hstack]
  rfl

theorem forkStack_space (hp : p ≠ σ.nextPid) : (σ.forkStack p).space p = σ.space p := by
  unfold forkStack
  dsimp only
  rw [Function.update_of_ne hp]
  exact Function.update_of_ne hp _ _

theorem copySpace_enough (child : Pid)
    (h : (σ.space p).validPages.length ≤ σ.mem.supply.length) :
    σ.copySpace p child = (true, { σ with
      mem := σ.mem.taken (σ.space p).validPages.length
      space := Function.update σ.space child
        { σ.space child with
          uPageTable := assign (fun _ => {}) (σ.space p).validPages
            (List.zipWith (copiedEntry (σ.space p).uPageTable) (σ.space p).validPages σ.mem.supply)
          nextHeapPn := (σ.space p).nextHeapPn
          nextStackPn := (σ.space p).nextStackPn }
      phys := copyFrames (σ.space p).uPageTable (σ.space p).validPages σ.mem.supply σ.phys }) := by
  unfold copySpace
  dsimp only
  rw [copyPages_enough h]
  rfl

theorem copySpace_short {child : Pid}
    (h : σ.mem.supply.length < (σ.space p).validPages.length) :
    (σ.copySpace p child).1 = false := copyPages_short h

theorem sysFork_enough (hblock : σ.mem.malloc.1.ok = true) (hroom : σ.nextPid < maxProc)
    (hhead : σ.forkHead = true) (hp : p ≠ σ.nextPid)
    (h : σ.forkFrames p ≤ σ.forkMem.supply.length) :
    ∃ τ, Forked σ p τ ∧ σ.sysFork p = some (.ret σ.nextPid, (τ.readyInsert σ.nextPid).2) := by
  unfold forkFrames at h
  have hsupply : (σ.forkStack p).mem.supply = σ.forkMem.supply.drop 2 :=
    Mem.supply_taken (le_trans (Nat.le_add_right _ _) h)
  have hlen : ((σ.forkStack p).space p).validPages.length ≤
      (σ.forkStack p).mem.supply.length := by
    rw [hsupply, List.length_drop, forkStack_space hp]
    omega
  have hcopy := copySpace_enough σ.nextPid hlen
  rw [hsupply, forkStack_space hp] at hcopy
  have hrun := sysFork_copies (p := p) hblock hroom hhead (le_trans (Nat.le_add_right _ _) h)
  rw [hcopy, if_pos rfl] at hrun
  refine ⟨_, ?_, hrun⟩
  exact {
    mem := by
      change (σ.forkMem.taken 2).taken _ = _
      rw [Mem.taken_taken]
      rfl
    phys := rfl
    space := fun q hq => by
      simp [forkStack, forkChild, createChild, hq, setPcb, malloc]
    child := by
      simp [forkStack, forkChild, createChild, setPcb, malloc]
    pcb := fun q hq => by
      simp [forkStack, forkChild, createChild, hq, setPcb, malloc]
    context := by
      simp [forkStack, forkChild, createChild, setPcb, malloc]
    family := rfl
    live := rfl
    nextPid := rfl
    queue := rfl }

/-- Without frames for all pages a Fork fails when the child has been linked. -/
theorem sysFork_short (hblock : σ.mem.malloc.1.ok = true) (hroom : σ.nextPid < maxProc)
    (hhead : σ.forkHead = true) (hp : p ≠ σ.nextPid)
    (h : σ.forkMem.supply.length < σ.forkFrames p) (hrun : σ.sysFork p = some (o, σ')) :
    o = .ret error ∧ σ'.live = σ.live ++ [σ.nextPid] := by
  unfold forkFrames at h
  by_cases hstack : 2 ≤ σ.forkMem.supply.length
  · have hsupply : (σ.forkStack p).mem.supply = σ.forkMem.supply.drop 2 :=
      Mem.supply_taken hstack
    have hcopy : ((σ.forkStack p).copySpace p σ.nextPid).1 = false := by
      apply copySpace_short
      rw [hsupply, List.length_drop, forkStack_space hp]
      omega
    rw [sysFork_copies hblock hroom hhead hstack, if_neg (by simp [hcopy])] at hrun
    obtain ⟨rfl, rfl⟩ := Prod.mk.inj (Option.some.inj hrun)
    exact ⟨rfl, rfl⟩
  · rw [sysFork_frames hblock hroom hhead,
      initProcKernel_short (by simpa using not_le.1 hstack)] at hrun
    exact absurd hrun (by simp)

/-! ## All or nothing -/

/-- The result of a Fork of `p` that is all or nothing: one that fails leaves the tree, the
process table, the free frames, the ready queue and the other processes alone. -/
def ForkAtomic (σ : Kernel) (p : Pid) (o : Outcome) (σ' : Kernel) : Prop :=
  o = .ret error → (σ'.family p).children = (σ.family p).children ∧ σ'.live = σ.live ∧
    σ'.mem.freeFrames.Perm σ.mem.freeFrames ∧ σ'.readyQueue = σ.readyQueue ∧
      ∀ q, q ≠ p → σ'.pcb q = σ.pcb q ∧ σ'.family q = σ.family q ∧ σ'.space q = σ.space q

/-- When a Fork of `p` leaves nothing behind: there is no memory for the PCB, and asking for
it has not cost a frame, or the next pid is an index of `pcb_table`, the head of the child's
list can be had, and there are frames for the kernel stack and all pages. -/
def ForkFits (σ : Kernel) (p : Pid) : Prop :=
  σ.mem.malloc.1.ok = false ∧ σ.mem.malloc.2.freeFrames.Perm σ.mem.freeFrames ∨
    σ.mem.malloc.1.ok = true ∧ σ.nextPid < maxProc ∧ σ.forkHead = true ∧
      σ.forkFrames p ≤ σ.forkMem.supply.length

/-- A Fork that fails when the child has been linked is not all or nothing. -/
theorem not_forkAtomic (ho : o = .ret error) (hlive : σ'.live = σ.live ++ [σ.nextPid]) :
    ¬ForkAtomic σ p o σ' := by
  intro h
  have hsame := (h ho).2.1
  rw [hlive] at hsame
  exact absurd hsame (by simp)

/-- Fork is all or nothing exactly when nothing fails after the PCB. -/
theorem fork_atomic_iff (σ : Kernel) {p : Pid} (h₀ : 0 ≤ p) (hp : p < σ.nextPid) :
    (∃ o σ', σ.sysFork p = some (o, σ') ∧ ForkAtomic σ p o σ') ↔ σ.ForkFits p := by
  unfold ForkFits
  cases hblock : σ.mem.malloc.1.ok with
  | false =>
      have hrun := sysFork_noBlock (p := p) hblock
      simp only [true_and, Bool.false_eq_true, false_and, or_false]
      constructor
      · rintro ⟨o, σ', hrun', hatomic⟩
        obtain ⟨rfl, rfl⟩ := Prod.mk.inj (Option.some.inj (hrun'.symm.trans hrun))
        exact (hatomic rfl).2.2.1
      · intro hperm
        exact ⟨_, _, hrun, fun _ => ⟨rfl, rfl, hperm, rfl, fun q _ => ⟨rfl, rfl, rfl⟩⟩⟩
  | true =>
      simp only [Bool.true_eq_false, false_and, true_and, false_or]
      constructor
      · rintro ⟨o, σ', hrun, hatomic⟩
        by_cases hroom : σ.nextPid < maxProc
        swap
        · rw [sysFork_noRoom hblock (not_lt.1 hroom)] at hrun
          exact absurd hrun (by simp)
        cases hhead : σ.forkHead with
        | false =>
            rw [sysFork_noHead hblock hroom hhead] at hrun
            obtain ⟨rfl, rfl⟩ := Prod.mk.inj (Option.some.inj hrun)
            exact absurd hatomic (not_forkAtomic rfl rfl)
        | true =>
            refine ⟨hroom, rfl, ?_⟩
            by_contra hshort
            obtain ⟨ho, hlive⟩ := sysFork_short hblock hroom hhead (ne_of_lt hp)
              (not_le.1 hshort) hrun
            exact not_forkAtomic ho hlive hatomic
      · rintro ⟨hroom, hhead, henough⟩
        obtain ⟨τ, -, hrun⟩ := sysFork_enough hblock hroom hhead (ne_of_lt hp) henough
        refine ⟨_, _, hrun, fun ho => ?_⟩
        have hpos := lt_of_le_of_lt h₀ hp
        rw [show σ.nextPid = -1 from Outcome.ret.inj ho] at hpos
        exact absurd hpos (by decide)

/-- The small machine, as its first Fork finds it. -/
theorem fork_atomic_iff_start : ∃ σ, kernelStart smallBoot = some σ ∧
    ((∃ o σ', (σ.callState (smallCall .fork 0 0 0)).sysFork 0 = some (o, σ') ∧
      ForkAtomic (σ.callState (smallCall .fork 0 0 0)) 0 o σ') ↔
        (σ.callState (smallCall .fork 0 0 0)).ForkFits 0) := by
  have hrun : ((kernelStart smallBoot).map fun σ =>
      decide ((0 : Pid) < (σ.callState (smallCall .fork 0 0 0)).nextPid)) = some true := by
    decide +kernel
  obtain ⟨σ, hσ, hP⟩ := Option.map_eq_some_iff.1 hrun
  exact ⟨σ, hσ, fork_atomic_iff _ (by decide) (of_decide_eq_true hP)⟩

/-- Init of the small machine calls Fork when there is memory for the PCB and for a node of
`children` but not for the head of the child's list: Fork fails, and the child stays. -/
theorem fork_leaves_child : ∃ σ, kernelStart smallBoot = some σ ∧
    ¬∃ o σ', (σ.callState { smallCall .fork 0 0 0 with mallocs := [{}, {}, { ok := false }]
        }).sysFork 0 = some (o, σ') ∧
      ForkAtomic (σ.callState { smallCall .fork 0 0 0 with
        mallocs := [{}, {}, { ok := false }] }) 0 o σ' := by
  have hrun : ((kernelStart smallBoot).bind fun σ =>
      ((σ.callState { smallCall .fork 0 0 0 with
        mallocs := [{}, {}, { ok := false }] }).sysFork 0).map fun r =>
        decide (r.1 = .ret error ∧ (r.2.family 0).children = [2] ∧
          (σ.family 0).children = [])) = some true := by
    decide +kernel
  obtain ⟨σ, hσ, hrun⟩ := Option.bind_eq_some_iff.1 hrun
  obtain ⟨⟨o, σ'⟩, hcall, hP⟩ := Option.map_eq_some_iff.1 hrun
  obtain ⟨rfl, hafter, hbefore⟩ := of_decide_eq_true hP
  refine ⟨σ, hσ, ?_⟩
  rintro ⟨o, τ, hτ, hatomic⟩
  obtain ⟨rfl, rfl⟩ := Prod.mk.inj (Option.some.inj (hτ.symm.trans hcall))
  have hchildren : (τ.family 0).children = (σ.family 0).children := (hatomic rfl).1
  exact absurd (hafter.symm.trans (hchildren.trans hbefore)) (by decide)

end Kernel

end Yalnix
