import Yalnix.Memory.Space

/-!
# Memory faults

`trap_memory_hdl` compares the page below the faulting address with `next_stack_pn`, grows
the stack down to it, and goes on when there is no frame. A fault in the lowest page of the
stack passes the comparison and grows nothing, and one in a page that a taken back break has
left mapped gets another frame, and nothing else changes.
-/

namespace Yalnix

namespace Kernel

/-- The page with the faulting address. -/
def faultPage (σ : Kernel) : Int := σ.stackEnd + 1

/-- The fault is taken for growth of the stack of `p`. -/
def StackFault (σ : Kernel) (p : Pid) : Prop :=
  σ.stackEnd ≤ (σ.space p).nextStackPn ∧ σ.stackEnd > (σ.space p).nextHeapPn

/-- The stack of `p` has grown down to the page of the fault: this page and those above it
that the stack did not have were not mapped, and they are now, to frames of their own that
were free. -/
structure StackGrown (σ : Kernel) (p : Pid) (σ' : Kernel) : Prop where
  grown : σ.faultPage ≤ (σ.space p).nextStackPn
  fresh : ∀ i, σ.faultPage ≤ i → i ≤ (σ.space p).nextStackPn →
    ((σ.space p).uPageTable i).valid = false
  limit : (σ'.space p).nextStackPn = σ.faultPage - 1 ∧
    (σ'.space p).nextHeapPn = (σ.space p).nextHeapPn ∧
    (σ'.space p).nextHeapPn < (σ'.space p).nextStackPn
  mapped : ∃ frames, σ.mem.freeFrames = frames ++ σ'.mem.freeFrames ∧ frames.Nodup ∧
    (frames.length : Int) = (σ.space p).nextStackPn - σ.faultPage + 1 ∧
    (∀ i, σ.faultPage ≤ i → i ≤ (σ.space p).nextStackPn → ∃ f ∈ frames,
      (σ'.space p).uPageTable i = ⟨true, protRead ||| protWrite, f⟩) ∧
    ∀ i j, σ.faultPage ≤ i → i ≤ (σ.space p).nextStackPn → σ.faultPage ≤ j →
      j ≤ (σ.space p).nextStackPn →
      ((σ'.space p).uPageTable i).pfn = ((σ'.space p).uPageTable j).pfn → i = j
  rest : ∀ i, ¬(σ.faultPage ≤ i ∧ i ≤ (σ.space p).nextStackPn) →
    (σ'.space p).uPageTable i = (σ.space p).uPageTable i

/-- The fault has been handled: `p` has exited, or its stack has grown. -/
def FaultHandled (σ : Kernel) (p : Pid) (σ' : Kernel) : Prop :=
  σ'.live = σ.live.erase p ∨ StackGrown σ p σ'

/-- The death of `p` can be recorded, or nobody is to be told. -/
def DeathFits (σ : Kernel) (p : Pid) : Prop :=
  (σ.bereaved p p).ppid = -1 ∨
    σ.mem.malloc.1.ok = true ∧ σ.mem.malloc.2.malloc.1.ok = true

instance (σ : Kernel) (p : Pid) : Decidable (σ.StackFault p) :=
  inferInstanceAs (Decidable (_ ∧ _))

/-- When a fault of `p` is handled: one that grows the stack is below its lowest page, the
pages down to it are not mapped, and there are different frames for all of them; one that
does not finds memory for the record of the death. -/
def FaultFits (σ : Kernel) (p : Pid) : Prop :=
  if σ.StackFault p then
    σ.faultPage ≤ (σ.space p).nextStackPn ∧
      (∀ i ∈ σ.stackPages p, ((σ.space p).uPageTable i).valid = false) ∧
      (σ.stackPages p).length ≤ σ.mem.freeFrames.length ∧
      (σ.mem.freeFrames.take (σ.stackPages p).length).Nodup
  else σ.DeathFits p

variable {σ σ' : Kernel} {p : Pid} {o : Outcome}

theorem mem_stackPages {i : Int} :
    i ∈ σ.stackPages p ↔ σ.faultPage ≤ i ∧ i ≤ (σ.space p).nextStackPn := by
  rw [stackPages, mem_pages_down, faultPage]
  omega

theorem length_stackPages (h : σ.stackEnd ≤ (σ.space p).nextStackPn) :
    ((σ.stackPages p).length : Int) = (σ.space p).nextStackPn - σ.faultPage + 1 := by
  rw [stackPages, length_pages, faultPage]
  omega

/-! ## Growth -/

/-- What growing the stack does, whether there are frames or not. -/
theorem growUserStack_taken (h : σ.growUserStack p = some σ') : σ'.live = σ.live ∧
    σ'.mem.freeFrames = σ.mem.freeFrames.drop (σ.stackPages p).length ∧
    (σ'.space p).nextStackPn = σ.stackEnd ∧
    (σ'.space p).nextHeapPn = (σ.space p).nextHeapPn ∧
    ((σ.stackPages p).length ≤ σ.mem.freeFrames.length → (σ'.space p).uPageTable =
      assign (σ.space p).uPageTable (σ.stackPages p) (σ.mem.freeFrames.map Pte.rw)) := by
  obtain ⟨r, hr, rfl⟩ := Option.map_eq_some_iff.1 h
  obtain ⟨hfree, htable⟩ := growStack_taken hr
  have hself : ∀ x, Function.update σ.space p x p = x := fun x => Function.update_self ..
  refine ⟨rfl, hfree, ?_, ?_, fun hlen => ?_⟩
  · change (Function.update σ.space p _ p).nextStackPn = _
    rw [hself]
  · change (Function.update σ.space p _ p).nextHeapPn = _
    rw [hself]
  · change (Function.update σ.space p _ p).uPageTable = _
    rw [hself]
    exact htable hlen

/-- With different frames for all pages below the stack, the stack grows. -/
theorem stackGrown_of_fits (hfault : σ.StackFault p)
    (hpage : σ.faultPage ≤ (σ.space p).nextStackPn)
    (hfresh : ∀ i ∈ σ.stackPages p, ((σ.space p).uPageTable i).valid = false)
    (hlen : (σ.stackPages p).length ≤ σ.mem.freeFrames.length)
    (hnodup : (σ.mem.freeFrames.take (σ.stackPages p).length).Nodup)
    (h : σ.growUserStack p = some σ') : StackGrown σ p σ' := by
  obtain ⟨-, hfree, hstack, hheap, htable⟩ := growUserStack_taken h
  have hvs : (σ.stackPages p).length ≤ (σ.mem.freeFrames.map Pte.rw).length := by
    simpa using hlen
  have hentry : ∀ i ∈ σ.stackPages p, ∃ f ∈ σ.mem.freeFrames.take (σ.stackPages p).length,
      (σ'.space p).uPageTable i = Pte.rw f := by
    intro i hi
    have hmem := assign_mem (f := (σ.space p).uPageTable) hvs hi
    rw [← List.map_take, List.mem_map] at hmem
    obtain ⟨f, hf, he⟩ := hmem
    exact ⟨f, hf, by rw [htable hlen, he]⟩
  refine ⟨hpage, fun i hle hge => hfresh i (mem_stackPages.2 ⟨hle, hge⟩), ⟨?_, hheap, ?_⟩,
    ⟨σ.mem.freeFrames.take (σ.stackPages p).length, ?_, hnodup,
    ?_, fun i hle hge => hentry i (mem_stackPages.2 ⟨hle, hge⟩), ?_⟩, fun i hi => ?_⟩
  · rw [hstack, faultPage]
    omega
  · rw [hheap, hstack]
    exact hfault.2
  · rw [hfree, List.take_append_drop]
  · rw [List.length_take, min_eq_left hlen, length_stackPages hfault.1]
  · intro i j hi hi' hj hj' hpfn
    have hi : i ∈ σ.stackPages p := mem_stackPages.2 ⟨hi, hi'⟩
    have hj : j ∈ σ.stackPages p := mem_stackPages.2 ⟨hj, hj'⟩
    have hpages : (σ.stackPages p).Nodup := nodup_pages_down _ _
    apply assign_inj (f := (σ.space p).uPageTable) hpages hvs ?_ hi hj
    · obtain ⟨f, -, hf⟩ := hentry i hi
      obtain ⟨g, -, hg⟩ := hentry j hj
      rw [hf, hg] at hpfn
      rw [← htable hlen, hf, hg, show f = g from hpfn]
    · rw [← List.map_take]
      exact hnodup.map fun f g hfg => congrArg Pte.pfn hfg
  · rw [htable hlen]
    exact assign_of_not_mem fun hmem => hi (mem_stackPages.1 hmem)

theorem stackGrown_iff (hfault : σ.StackFault p) (h : σ.growUserStack p = some σ') :
    StackGrown σ p σ' ↔ σ.faultPage ≤ (σ.space p).nextStackPn ∧
      (∀ i ∈ σ.stackPages p, ((σ.space p).uPageTable i).valid = false) ∧
      (σ.stackPages p).length ≤ σ.mem.freeFrames.length ∧
      (σ.mem.freeFrames.take (σ.stackPages p).length).Nodup := by
  constructor
  · intro hgrown
    obtain ⟨frames, hfree, hnodup, hlen, -⟩ := hgrown.mapped
    rw [← length_stackPages hfault.1, Int.natCast_inj] at hlen
    refine ⟨hgrown.grown, fun i hi => ?_, ?_, ?_⟩
    · obtain ⟨hle, hge⟩ := mem_stackPages.1 hi
      exact hgrown.fresh i hle hge
    · rw [hfree, List.length_append, hlen]
      exact Nat.le_add_right _ _
    · rwa [hfree, List.take_left' hlen]
  · rintro ⟨hpage, hfresh, hlen, hnodup⟩
    exact stackGrown_of_fits hfault hpage hfresh hlen hnodup h

/-! ## Exit -/

theorem insertDeadList_fst (σ : Kernel) (ppid : Pid) (status : Word) :
    (σ.insertDeadList ppid p status).1 = 0 ↔
      σ.mem.malloc.1.ok = true ∧ σ.mem.malloc.2.malloc.1.ok = true := by
  unfold insertDeadList
  dsimp only
  rw [listInsert_last]
  change (if σ.mem.malloc.1.ok = true then _ else _ : Int × Kernel).1 = 0 ↔ _
  split
  · rename_i hrecord
    change (if σ.mem.malloc.2.malloc.1.ok = true then _ else _ : Int × _ × Mem).1 = 0 ↔ _
    split <;> simp_all [error]
  · simp_all [error]

/-- The part of Exit that tells the parent fails when it has one and no memory. -/
theorem tellParent_fst {status : Word} {rc : Int} (h : σ.tellParent p status = some (rc, σ')) :
    rc = 0 ↔ (σ.family p).ppid = -1 ∨
      σ.mem.malloc.1.ok = true ∧ σ.mem.malloc.2.malloc.1.ok = true := by
  unfold tellParent at h
  dsimp only at h
  split at h
  · rename_i hroot
    obtain ⟨rfl, -⟩ := Prod.mk.inj (Option.some.inj h)
    exact iff_of_true rfl (.inl hroot)
  rename_i hparent
  rw [or_iff_right hparent, ← insertDeadList_fst (p := p) σ (σ.family p).ppid status]
  split at h
  · rename_i hrc
    obtain ⟨rfl, -⟩ := Prod.mk.inj (Option.some.inj h)
    exact iff_of_false (by decide) hrc
  · rename_i hrc
    obtain ⟨p1, -, h⟩ := Option.map_eq_some_iff.1 h
    obtain ⟨rfl, -⟩ := Prod.mk.inj h
    exact iff_of_true rfl (not_not.1 hrc)

/-- Exit takes its process out of the process table if it can record the death. -/
theorem sysExit_live_iff {status : Word} (hp : p ∈ σ.live)
    (h : σ.sysExit p status = some (o, σ')) : σ'.live = σ.live.erase p ↔ σ.DeathFits p := by
  have hne : σ.live ≠ σ.live.erase p := by
    intro he
    have hlen := congrArg List.length he
    have hpos := List.length_pos_of_mem hp
    rw [List.length_erase_of_mem hp] at hlen
    omega
  unfold sysExit at h
  obtain ⟨family, hfamily, h⟩ := Option.bind_eq_some_iff.1 h
  obtain ⟨⟨rc, τ⟩, hτ, h⟩ := Option.bind_eq_some_iff.1 h
  have hlive : τ.live = σ.live :=
    ((setFamily_touches σ family).trans (tellParent_touches hτ)).same .pids (by simp) |>.2
  have hrc := tellParent_fst hτ
  have hppid : family p = σ.bereaved p p := orphan_eq hfamily p
  change rc = 0 ↔ (family p).ppid = -1 ∨ _ at hrc
  rw [hppid] at hrc
  unfold DeathFits
  split at h
  · rename_i herr
    obtain ⟨-, rfl⟩ := Prod.mk.inj (Option.some.inj h)
    exact iff_of_false (hlive ▸ hne) fun hfits => herr (hrc.2 hfits)
  · rename_i hzero
    have hblock := block_touches (v := [.queues, .contexts, .users]) (by simp)
      (fun _ _ _ _ h => .ret (.refl _ _) h) h
    have hwake := wakeParent_touches (τ.freeSpace p) (τ.family p).ppid
    refine iff_of_true ?_ (hrc.1 (not_not.1 hzero))
    rw [(hblock.same .pids (by simp)).2, ← hlive]
    exact congrArg (·.erase p) (hwake.same .pids (by simp)).2

/-! ## The handler -/

/-- A step in which a memory fault at address `a` interrupts the process that runs. -/
def memoryFault (a : Word) : Label := { event := .trap { vector := 3, addr := a } }

end Kernel

end Yalnix
