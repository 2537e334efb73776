import Yalnix.Memory.Isolation
import Yalnix.Memory.Partition

/-!
# The frames of the kernel

The heap of the kernel and the processes take their frames from the same list, and `malloc`
may take some in the middle of any operation: while `sys_Exit` gives the pages of a process
back, the list nodes for them may need pages of the heap. Here the page table of region 0 and
the copy of the first kernel stack are counted among the places of a frame. No step brings a
frame to a second place, so that no user memory is ever in a frame of the kernel. What the
kernel itself writes to its memory is not in the model.
-/

namespace Yalnix

open Transition

/-- The pages of region 0. -/
def kernelPages : List Int := pages 0 1 128

theorem nodup_kernelPages : kernelPages.Nodup := nodup_pages_up 0 128

namespace Mem

/-- How often the kernel has the frame `f`: in its page table, and for the copy of its first
stack. -/
def kernelUses (m : Mem) (f : ℕ) : ℕ :=
  usesOn kernelPages m.krnlPageTable f + stackUses m.initialKs f

/-- How often the frame `f` is free or with the kernel. -/
def pool (m : Mem) (f : ℕ) : ℕ := m.freeFrames.count f + m.kernelUses f

variable {m : Mem} {f : ℕ}

/-! ## The heap of the kernel -/

/-- The kernel has the same frames. -/
structure SameKernel (m m' : Mem) : Prop where
  table : m'.krnlPageTable = m.krnlPageTable
  copy : m'.initialKs = m.initialKs

theorem SameKernel.refl (m : Mem) : SameKernel m m := ⟨rfl, rfl⟩

theorem SameKernel.trans {m₁ m₂ : Mem} (h : SameKernel m m₁) (h' : SameKernel m₁ m₂) :
    SameKernel m m₂ := ⟨h'.table.trans h.table, h'.copy.trans h.copy⟩

theorem SameKernel.kernelUses {m' : Mem} (h : SameKernel m m') (f : ℕ) :
    m'.kernelUses f = m.kernelUses f := by
  unfold Mem.kernelUses
  rw [h.table, h.copy]

theorem sameKernel_grabAFrame (m : Mem) : SameKernel m m.grabAFrame.2 := by
  unfold grabAFrame
  split
  · exact ⟨rfl, rfl⟩
  · exact ⟨rfl, rfl⟩

theorem pool_grabAFrame_le (m : Mem) (f : ℕ) : m.grabAFrame.2.pool f ≤ m.pool f := by
  have hcount := m.count_grabAFrame_le f
  unfold pool
  rw [(sameKernel_grabAFrame m).kernelUses]
  omega

/-- The frames that the heap gets come from the list. -/
theorem pool_mapKernelPages_le (n : ℕ) (i : Int) (m : Mem) (f : ℕ) :
    (m.mapKernelPages n i).2.pool f ≤ m.pool f := by
  induction n generalizing i m with
  | zero => exact le_rfl
  | succ n ih =>
      unfold mapKernelPages
      dsimp only
      split
      · exact m.pool_grabAFrame_le f
      · rename_i hframe
        refine (ih _ _).trans ?_
        have hcount := count_grabAFrame hframe f
        have hkernel := (sameKernel_grabAFrame m).kernelUses f
        have hupdate := usesOn_update_le (t := m.grabAFrame.2.krnlPageTable) (i := i) (f := f)
          (e := ⟨true, protWrite ||| protRead, m.grabAFrame.1⟩) nodup_kernelPages
        unfold kernelUses at hkernel
        simp only [Pte.uses, true_and] at hupdate
        unfold pool kernelUses
        dsimp only
        omega

theorem pool_setKernelBrk_le (m : Mem) (addr : Word) (f : ℕ) :
    (m.setKernelBrk addr).2.pool f ≤ m.pool f := by
  unfold setKernelBrk
  split
  · split
    · exact le_rfl
    · exact le_rfl
  split
  swap
  · exact le_rfl
  split
  · exact le_rfl
  dsimp only
  split
  · exact pool_mapKernelPages_le _ _ m f
  · exact pool_mapKernelPages_le _ _ m f

theorem pool_malloc_le (m : Mem) (f : ℕ) : m.malloc.2.pool f ≤ m.pool f := by
  unfold malloc
  split
  · exact le_rfl
  rename_i a as _
  have hgrow : ∀ (ws : List (BitVec 31)) (m : Mem), (ws.foldl (fun m addr =>
      (m.setKernelBrk (addr.setWidth 32)).2) m).pool f ≤ m.pool f := by
    intro ws
    induction ws with
    | nil => exact fun m => le_rfl
    | cons w ws ih => exact fun m => (ih _).trans (pool_setKernelBrk_le m _ f)
  exact hgrow a.grow { m with mallocs := as }

theorem pool_freeFrame_le (m : Mem) (pfn f : ℕ) :
    (m.freeFrame pfn).pool f ≤ m.pool f + if pfn = f then 1 else 0 := by
  have hmalloc := m.pool_malloc_le f
  unfold freeFrame
  dsimp only
  split
  · unfold pool at hmalloc ⊢
    unfold kernelUses at hmalloc ⊢
    rw [List.count_cons]
    simp only [beq_iff_eq]
    omega
  · omega

end Mem

/-! ## Loops over the pages of a process -/

section Loops

variable {is : List Int} {t : PageTable} {m : Mem} {f : ℕ}

theorem grabPages_sameKernel {r : Bool × Mem × PageTable} (h : grabPages is m t = some r) :
    Mem.SameKernel m r.2.1 := by
  induction is generalizing m t with
  | nil =>
      obtain rfl := Option.some.inj h
      exact .refl _
  | cons i is ih =>
      rw [grabPages] at h
      split at h
      · obtain rfl := Option.some.inj h
        exact Mem.sameKernel_grabAFrame m
      split at h
      · exact (Mem.sameKernel_grabAFrame m).trans (ih h)
      · exact absurd h (by simp)

theorem growStack_sameKernel {r : Mem × PageTable} (h : growStack is m t = some r) :
    Mem.SameKernel m r.1 := by
  induction is generalizing m t with
  | nil =>
      obtain rfl := Option.some.inj h
      exact .refl _
  | cons i is ih =>
      rw [growStack] at h
      dsimp only at h
      split at h
      · exact (Mem.sameKernel_grabAFrame m).trans (ih h)
      · exact absurd h (by simp)

theorem initKStack_sameKernel {r : Mem × PageTable} (h : initKStack is m t = some r) :
    Mem.SameKernel m r.1 := by
  induction is generalizing m t with
  | nil =>
      obtain rfl := Option.some.inj h
      exact .refl _
  | cons i is ih =>
      rw [initKStack] at h
      split at h
      · exact absurd h (by simp)
      · exact (Mem.sameKernel_grabAFrame m).trans (ih h)

/-- The frames that a loop gives back come from the page table, and what the list nodes for
them need comes from the list. -/
theorem freePages_pool (his : is.Nodup) (f : ℕ) :
    (freePages is m t).1.pool f ≤ m.pool f + usesOn is t f := by
  induction is generalizing m t with
  | nil => exact Nat.le_add_right _ _
  | cons i is ih =>
      obtain ⟨hi, his⟩ := List.nodup_cons.1 his
      rw [usesOn_cons]
      unfold freePages
      split
      · rename_i hv
        have hrest := ih (m := m.freeFrame (t i).pfn)
          (t := Function.update t i { t i with valid := false, prot := 0 }) his
        rw [usesOn_update_of_not_mem hi] at hrest
        have hfree := m.pool_freeFrame_le (t i).pfn f
        have huses : (t i).uses f = if (t i).pfn = f then 1 else 0 := by simp [Pte.uses, hv]
        omega
      · have hrest := ih (m := m) (t := t) his
        omega

/-- The frames that a loop takes go to the page table. -/
theorem grabPages_pool {r : Bool × Mem × PageTable} (h : grabPages is m t = some r) (f : ℕ) :
    r.2.1.pool f + usesOn userPages r.2.2 f ≤ m.pool f + usesOn userPages t f := by
  have hcount := grabPages_uses h f
  unfold Mem.pool
  rw [(grabPages_sameKernel h).kernelUses]
  omega

end Loops

/-! ## Places -/

/-- How often the frame `f` is free, with the kernel, or with one of the processes `ps`. -/
def places (ps : List Pid) (x : Mem × (Pid → Space)) (f : ℕ) : ℕ :=
  x.1.pool f + (ps.map fun q => (x.2 q).uses f).sum

section Places

variable {ps : List Pid} {f : ℕ} {x y : Mem × (Pid → Space)}

theorem places_eq : places ps x f = x.1.kernelUses f + owned ps x f := by
  unfold places Mem.pool owned
  omega

/-- One process and the pool exchange frames. -/
theorem places_update {m m' : Mem} {s : Pid → Space} {z : Space} {q : Pid} (hps : ps.Nodup)
    (hq : q ∈ ps) (h : m'.pool f + z.uses f ≤ m.pool f + (s q).uses f) :
    places ps (m', Function.update s q z) f ≤ places ps (m, s) f := by
  unfold places
  dsimp only
  simp only [Function.apply_update (fun _ z => Space.uses z f)]
  exact sum_map_move hps (absurd hq) h

/-- A change that leaves the kernel's own frames alone. -/
theorem places_le_of_owned (hkernel : y.1.kernelUses f = x.1.kernelUses f)
    (h : owned ps y f ≤ owned ps x f) : places ps y f ≤ places ps x f := by
  rw [places_eq, places_eq, hkernel]
  exact Nat.add_le_add_left h _

theorem Refill.places_le (hps : ps.Nodup) (h : Refill x y) : places ps y f ≤ places ps x f := by
  refine h.induct (P := fun m s => places ps (m, s) f ≤ places ps x f) le_rfl ?_ ?_
  · intro m s hle
    exact (Nat.add_le_add_right (m.pool_malloc_le f) _).trans hle
  · intro m s q r hle hq hr
    refine le_trans ?_ hle
    apply places_le_of_owned
    · exact (initKStack_sameKernel hr).kernelUses f
    · exact Refill.owned_le hps (.stack q (.refl (m, s)) hq hr)

end Places

namespace Kernel

variable {σ σ' τ : Kernel} {l : Label} {ps : List Pid} {p q : Pid} {o : Outcome} {li : Exe}
  {f : ℕ}

/-- How often the frame `f` is free, with the kernel or with a process. -/
def places (σ : Kernel) (f : ℕ) : ℕ := Yalnix.places σ.live (σ.mem, σ.space) f

/-- What the loops of `load_program` exchange between the process and the pool. -/
structure Exchanges (σ : Kernel) (p : Pid) (r : Bool × Mem × PageTable) : Prop where
  pool : ∀ f, r.2.1.pool f + usesOn userPages r.2.2 f ≤
    σ.mem.pool f + usesOn userPages (σ.space p).uPageTable f
  free : ∀ f, r.2.1.freeFrames.count f + usesOn userPages r.2.2 f ≤
    σ.mem.freeFrames.count f + usesOn userPages (σ.space p).uPageTable f

theorem Exchanges.freed (σ : Kernel) (p : Pid) (b : Bool) : Exchanges σ p (b, σ.freedPages p) where
  pool f := by
    have hinvalid : usesOn userPages (σ.freedPages p).2 f = 0 := by
      apply usesOn_eq_zero
      intro i hi
      rw [freedPages, freePages_table, if_pos hi]
      exact Pte.freed_valid _
    dsimp only
    rw [hinvalid]
    exact freePages_pool nodup_userPages f
  free f := freedPages_uses σ p f

theorem Exchanges.grab {r r' : Bool × Mem × PageTable} {is : List Int} (h : Exchanges σ p r)
    (hgrab : grabPages is r.2.1 r.2.2 = some r') : Exchanges σ p r' where
  pool f := (grabPages_pool hgrab f).trans (h.pool f)
  free f := (grabPages_uses hgrab f).trans (h.free f)

/-- The mapping of a program exchanges frames, and leaves the kernel stack alone. -/
theorem mapProgram_exchanges {n : ℕ} {b : Bool} (h : σ.mapProgram li n p = some (b, σ')) :
    ∃ r x, Exchanges σ p r ∧ x.kStackPt = (σ.space p).kStackPt ∧ σ' = σ.setMap p r x := by
  unfold mapProgram at h
  dsimp only at h
  change (grabPages _ (σ.freedPages p).1 (σ.freedPages p).2).bind _ = _ at h
  obtain ⟨text, htext, h⟩ := Option.bind_eq_some_iff.1 h
  have htext := (Exchanges.freed σ p b).grab htext
  split at h
  · obtain ⟨-, rfl⟩ := Prod.mk.inj (Option.some.inj h)
    exact ⟨_, _, htext, by rfl, rfl⟩
  obtain ⟨data, hdata, h⟩ := Option.bind_eq_some_iff.1 h
  have hdata := htext.grab hdata
  split at h
  · obtain ⟨-, rfl⟩ := Prod.mk.inj (Option.some.inj h)
    exact ⟨_, _, hdata, by rfl, rfl⟩
  obtain ⟨stack, hstack, h⟩ := Option.bind_eq_some_iff.1 h
  have hstack := hdata.grab hstack
  split at h
  · obtain ⟨-, rfl⟩ := Prod.mk.inj (Option.some.inj h)
    exact ⟨_, _, hstack, by rfl, rfl⟩
  · obtain ⟨-, rfl⟩ := Prod.mk.inj (Option.some.inj h)
    exact ⟨_, _, hstack, by rfl, rfl⟩

theorem mapProgram_places {n : ℕ} {b : Bool} (hps : ps.Nodup) (hp : p ∈ ps)
    (h : σ.mapProgram li n p = some (b, σ')) :
    Yalnix.places ps (σ'.mem, σ'.space) f ≤ Yalnix.places ps (σ.mem, σ.space) f := by
  obtain ⟨r, x, hr, hx, rfl⟩ := mapProgram_exchanges h
  have hpool := hr.pool f
  change Yalnix.places ps (r.2.1, Function.update σ.space p { x with uPageTable := r.2.2 }) f ≤ _
  refine places_update hps hp ?_
  unfold Space.uses
  dsimp only
  rw [hx]
  omega

theorem loadProgram_places {file : Option Exe} {args : Option (List (List Byte))} {rc : Int}
    (hps : ps.Nodup) (hp : p ∈ ps) (h : σ.loadProgram file args p = some (rc, σ')) :
    Yalnix.places ps (σ'.mem, σ'.space) f ≤ Yalnix.places ps (σ.mem, σ.space) f := by
  have hmalloc : Yalnix.places ps (σ.mem.malloc.2, σ.space) f ≤
      Yalnix.places ps (σ.mem, σ.space) f := Nat.add_le_add_right (σ.mem.pool_malloc_le f) _
  rcases loadProgram_space h with ⟨hspace, -, hmem | hmem⟩ |
    ⟨li, -, av, -, b, τ, -, hmap, hmem, hspace, -⟩
  · rw [hmem, hspace]
  · rwa [hmem, hspace]
  · have hmapped := (mapProgram_places (f := f) hps hp hmap).trans hmalloc
    rw [hmem]
    rcases hspace with hspace | hspace
    · rwa [hspace]
    · rw [hspace]
      unfold Yalnix.places at hmapped ⊢
      dsimp only at hmapped ⊢
      simp only [protect_uses]
      exact hmapped

theorem pool_forkMem_le (σ : Kernel) (f : ℕ) : σ.forkMem.pool f ≤ σ.mem.pool f :=
  (Mem.pool_malloc_le _ f).trans ((Mem.pool_malloc_le _ f).trans (Mem.pool_malloc_le _ f))

theorem Forked.places_le (h : Forked σ p τ) (hframes : σ.forkFrames p ≤ σ.forkMem.supply.length)
    (hnew : σ.nextPid ∉ σ.live) : τ.places f ≤ σ.places f := by
  have huses := h.uses_le (f := f) hframes
  have hpool := σ.pool_forkMem_le f
  have hsplit := congrArg (List.count f)
    (List.take_append_drop (σ.forkFrames p) σ.forkMem.freeFrames)
  rw [List.count_append] at hsplit
  have hothers : (σ.live.map fun q => (τ.space q).uses f) =
      σ.live.map fun q => (σ.space q).uses f := by
    apply List.map_congr_left
    intro q hq
    rw [h.space q]
    rintro rfl
    exact hnew hq
  have hkernel : τ.mem.kernelUses f = σ.forkMem.kernelUses f := by
    rw [h.mem]
    rfl
  have hfree : τ.mem.freeFrames = σ.forkMem.freeFrames.drop (σ.forkFrames p) := by
    rw [h.mem, Mem.taken_freeFrames]
  unfold Kernel.places Yalnix.places
  dsimp only
  rw [h.live, List.map_append, List.sum_append, hothers, List.map_singleton, List.sum_singleton]
  unfold Mem.pool at hpool ⊢
  rw [hkernel, hfree]
  omega

/-- The frames of a process that exits become free, or the kernel needs them for the nodes of
the list. -/
theorem freeSpace_places (hps : ps.Nodup) (hp : p ∈ ps)
    (hstack : ((σ.space p).kStackPt 0).pfn ≠ 0) :
    Yalnix.places (ps.erase p) ((σ.freeSpace p).mem, (σ.freeSpace p).space) f ≤
      Yalnix.places ps (σ.mem, σ.space) f := by
  have huser := freePages_pool (m := σ.mem) (t := (σ.space p).uPageTable) nodup_userPages f
  have hkernel := freePages_pool (t := (σ.space p).kStackPt)
    (m := (freePages userPages σ.mem (σ.space p).uPageTable).1) (nodup_pages_up 0 2) f
  have hone : ∀ e : Pte, e.uses f ≤ if e.pfn = f then 1 else 0 := by
    intro e
    unfold Pte.uses
    split
    · rename_i he
      rw [if_pos he.2]
    · exact Nat.zero_le _
  have hstackUses : usesOn (pages 0 1 2) (σ.space p).kStackPt f ≤
      stackUses (σ.space p).kStackPt f := by
    rw [stackUses, if_neg hstack]
    change ([0, 1].map fun i => ((σ.space p).kStackPt i).uses f).sum ≤ _
    simp only [List.map_cons, List.map_nil, List.sum_cons, List.sum_nil, Nat.add_zero]
    exact Nat.add_le_add (hone _) (hone _)
  have hfree : (σ.freeSpace p).mem.pool f ≤ σ.mem.pool f + (σ.space p).uses f := by
    change (freePages (pages 0 1 2) (freePages userPages σ.mem (σ.space p).uPageTable).1
      (σ.space p).kStackPt).1.pool f ≤ _
    unfold Space.uses
    omega
  have hothers : ((ps.erase p).map fun q => ((σ.freeSpace p).space q).uses f) =
      (ps.erase p).map fun q => (σ.space q).uses f := by
    apply List.map_congr_left
    intro q hq
    have hne := (hps.mem_erase_iff.1 hq).1
    exact congrArg (Space.uses · f) (Function.update_of_ne hne _ _)
  have hsum := List.sum_map_erase (fun q => (σ.space q).uses f) hp
  unfold Yalnix.places
  dsimp only
  rw [hothers]
  omega

/-! ## Steps -/

theorem finish_places (o : Outcome) (τ : Kernel) : (finish (o, τ)).places f = τ.places f := by
  cases o <;> rfl

theorem sysBrk_sameKernel (h : σ.sysBrk p = some (o, σ')) : Mem.SameKernel σ.mem σ'.mem := by
  obtain ⟨r, hgrab, h⟩ := Option.map_eq_some_iff.1 h
  have hkernel := grabPages_sameKernel hgrab
  split at h
  · obtain ⟨-, rfl⟩ := Prod.mk.inj h
    exact hkernel
  · obtain ⟨-, rfl⟩ := Prod.mk.inj h
    exact hkernel

/-- A step brings no frame to a second place. -/
theorem step_places (hinv : σ.Placed) (hst : σ.Stacked) (h : Steps σ l σ')
    (ha : σ.Allocates l σ') : σ'.places f ≤ σ.places f := by
  cases space_step h with
  | refills hrefill hlive =>
      unfold Kernel.places
      rw [hlive]
      have hle := hrefill.places_le (f := f) hinv.nodup
      exact hle
  | brk u p o τ hl hc hp hrun he =>
      subst he
      have hmem := hinv.live_of_active hp
      have howned := sysBrk_owned (σ := (σ.begin l).enter u) (f := f) hinv.nodup hmem hrun
      rw [finish_places]
      unfold Kernel.places
      rw [places_eq, places_eq]
      exact Nat.add_le_add ((sysBrk_sameKernel hrun).kernelUses f).le howned
  | fork u p o τ hl hc hp hrun he =>
      subst he
      have hlive := hinv.live_of_active hp
      obtain ⟨h₀, hlt⟩ := hinv.bound p hlive
      have hsame : τ.mem.refused = ((σ.begin l).enter u).mem.refused := by
        rw [← finish_mem o, ha.2]
        rfl
      obtain ⟨τ', hforked, hframes, -, rfl⟩ := sysFork_forked
        (show ((σ.begin l).enter u).mem.AllOk from ha.begin) h₀ hlt hrun hsame
      have hnew : ((σ.begin l).enter u).nextPid ∉ ((σ.begin l).enter u).live :=
        fun hmem => lt_irrefl _ (hinv.bound _ hmem).2
      have hready := readyInsert_touches τ' ((σ.begin l).enter u).nextPid
      rw [finish_places]
      refine le_trans ?_ (hforked.places_le (f := f) hframes hnew)
      unfold Kernel.places
      rw [(hready.same .pids (by simp)).2]
      refine Refill.places_le ?_ (hready.same .frames (by simp))
      rw [hforked.live]
      exact hinv.nodup.append (List.nodup_singleton _) (List.disjoint_singleton.2 hnew)
  | exec u p o τ hl hc hp hrun he =>
      subst he
      have hlive := ((sysExec_touches hrun).same .pids (by simp)).2
      rw [finish_places]
      unfold Kernel.places
      rw [hlive]
      rcases sysExec_space hrun with ⟨-, rfl⟩ | ⟨rc, τ', hload, hmem, hspace, -⟩
      · exact le_rfl
      · rw [hmem, hspace]
        exact loadProgram_places (σ := (σ.begin l).enter u) hinv.nodup
          (hinv.live_of_active hp) hload
  | exit p τ hp hτ hrun hlive _ =>
      have hmem := hinv.live_of_active hp
      have hstack : ((τ.space p).kStackPt 0).pfn ≠ 0 :=
        hτ.stack_ne_zero (hst.stack p (Or.inr hp))
      have hbefore := hτ.places_le (f := f) hinv.nodup
      have hfree := freeSpace_places (f := f) hinv.nodup hmem hstack
      have hafter := hrun.places_le (f := f) (hinv.nodup.erase p)
      unfold Kernel.places
      rw [hlive]
      exact hafter.trans (hfree.trans hbefore)
  | grow u p τ hl hv hp hfit hrun he =>
      subst he
      have howned := growUserStack_owned (σ := (σ.begin l).enter u) (f := f) hinv.nodup
        (hinv.live_of_active hp) hrun ha.2.le
      obtain ⟨r, hgrow, rfl⟩ := Option.map_eq_some_iff.1 hrun
      change Yalnix.places σ.live _ f ≤ _
      unfold Kernel.places
      rw [places_eq, places_eq]
      exact Nat.add_le_add ((growStack_sameKernel hgrow).kernelUses f).le howned

end Kernel

/-! ## The boot -/

namespace Mem

variable {m : Mem} {f : ℕ}

theorem initialKs_mapKernelPages (n : ℕ) (i : Int) (m : Mem) :
    (m.mapKernelPages n i).2.initialKs = m.initialKs := by
  induction n generalizing i m with
  | zero => rfl
  | succ n ih =>
      unfold mapKernelPages
      dsimp only
      split
      · exact (sameKernel_grabAFrame m).copy
      · exact (ih _ _).trans (sameKernel_grabAFrame m).copy

theorem initialKs_setKernelBrk (m : Mem) (addr : Word) :
    (m.setKernelBrk addr).2.initialKs = m.initialKs := by
  unfold setKernelBrk
  split
  · split
    · rfl
    · rfl
  split
  swap
  · rfl
  split
  · rfl
  dsimp only
  split
  · exact initialKs_mapKernelPages _ _ m
  · exact initialKs_mapKernelPages _ _ m

theorem initialKs_malloc (m : Mem) : m.malloc.2.initialKs = m.initialKs := by
  unfold malloc
  split
  · rfl
  rename_i a as _
  have hgrow : ∀ (ws : List (BitVec 31)) (m : Mem), (ws.foldl (fun m addr =>
      (m.setKernelBrk (addr.setWidth 32)).2) m).initialKs = m.initialKs := by
    intro ws
    induction ws with
    | nil => exact fun m => rfl
    | cons w ws ih => exact fun m => (ih _).trans (initialKs_setKernelBrk m _)
  exact hgrow a.grow { m with mallocs := as }

end Mem

theorem initialKs_initQueues {n : ℕ} {m m' : Mem} (h : initQueues n m = some m') :
    m'.initialKs = m.initialKs := by
  induction n generalizing m with
  | zero =>
      obtain rfl := Option.some.inj h
      rfl
  | succ n ih =>
      unfold initQueues at h
      split at h
      · exact (ih h).trans m.initialKs_malloc
      · exact absurd h (by simp)

theorem initialKs_gatherLoop (bound : Mem → Int) (is : List Int) (m : Mem) :
    (gatherLoop bound is m).2.initialKs = m.initialKs := by
  induction is generalizing m with
  | nil => rfl
  | cons i is ih =>
      unfold gatherLoop
      dsimp only
      split
      swap
      · rfl
      rw [listInsert_last]
      by_cases hok : m.malloc.1.ok = true
      · rw [if_pos hok, if_neg (by simp)]
        exact (ih _).trans m.initialKs_malloc
      · rw [if_neg hok, if_pos (show (error, m.freeFrames, m.malloc.2).1 ≠ 0 by simp [error])]
        exact m.initialKs_malloc

theorem initialKs_gatherFreeFrames (n : ℕ) (m : Mem) :
    (gatherFreeFrames n m).initialKs = m.initialKs := by
  unfold gatherFreeFrames
  dsimp only
  split
  · exact (initialKs_gatherLoop _ _ _).trans (initialKs_gatherLoop _ _ m)
  · exact initialKs_gatherLoop _ _ m

/-- A table that maps pages to the frames with their own numbers has each frame once. -/
theorem usesOn_identity_le {is : List Int} {t : PageTable} {f : ℕ} (hpos : ∀ i ∈ is, 0 ≤ i)
    (h : ∀ i, (t i).valid = true → (t i).pfn = i.toNat) :
    usesOn is t f ≤ is.count (f : Int) := by
  induction is with
  | nil => exact le_rfl
  | cons i is ih =>
      obtain ⟨hi, his⟩ := List.forall_mem_cons.1 hpos
      have hrest := ih his
      have hone : (t i).uses f ≤ if i == (f : Int) then 1 else 0 := by
        unfold Pte.uses
        split
        · rename_i he
          have hpfn := (h i he.1).symm.trans he.2
          have heq : i = f := by omega
          rw [if_pos (by simpa using heq)]
        · exact Nat.zero_le _
      rw [usesOn_cons, List.count_cons]
      omega

/-- The kernel has no frame twice when virtual memory is enabled. -/
theorem bootMem_kernelUses_le {b : Boot} {m : Mem} (h : bootMem b = some m) (f : ℕ) :
    m.kernelUses f ≤ 1 := by
  obtain ⟨m', hm', h⟩ := Option.bind_eq_some_iff.1 h
  dsimp only at h
  have hcopy : m'.initialKs = fun _ => {} := initialKs_initQueues hm'
  split at h
  swap
  · exact absurd h (by simp)
  split at h
  swap
  · exact absurd h (by simp)
  obtain rfl := Option.some.inj h
  have htable : usesOn kernelPages (bootPageTable b.dataStart b.dataEnd
      (gatherFreeFrames b.totalFrames
        (Mem.malloc { m' with mallocs := b.gatherMallocs }).2).kernelBrk) f ≤
        kernelPages.count (f : Int) :=
    usesOn_identity_le (fun i hi => (mem_pages_up.1 hi).1) fun i hi => Mem.bootPageTable_pfn hi
  have hnodup := List.nodup_iff_count_le_one.1 nodup_kernelPages (f : Int)
  have hstack : stackUses (gatherFreeFrames b.totalFrames
      (Mem.malloc { m' with mallocs := b.gatherMallocs }).2).initialKs f = 0 := by
    rw [initialKs_gatherFreeFrames, Mem.initialKs_malloc, hcopy]
    rfl
  unfold Mem.kernelUses
  dsimp only
  rw [hstack]
  omega

namespace Kernel

variable {σ σ' τ : Kernel} {p : Pid} {o : Outcome} {f : ℕ}

theorem bootProc_places {state : ProcState} {uctxt : UserContext}
    {kStackPt : PageTable → Mem → Option (Mem × PageTable)} (hnew : σ.nextPid ∉ σ.live)
    (hk : ∀ t m r, kStackPt t m = some r →
      r.1.pool f + stackUses r.2 f ≤ m.pool f)
    (h : σ.bootProc state uctxt kStackPt = some σ') : σ'.places f ≤ σ.places f := by
  obtain ⟨r, hr, hmem, hspace, hlive⟩ := bootProc_space h
  have hkept := hk _ _ _ hr
  have hmalloc := σ.mem.pool_malloc_le f
  have hmalloc' := σ.mem.malloc.2.pool_malloc_le f
  have huses : Space.uses { kStackPt := r.2 } f = stackUses r.2 f := by
    unfold Space.uses
    rw [usesOn_eq_zero fun _ _ => rfl, Nat.zero_add]
  have hothers : (σ.live.map fun q => (σ'.space q).uses f) =
      σ.live.map fun q => (σ.space q).uses f := by
    apply List.map_congr_left
    intro q hq
    rw [hspace, Function.update_of_ne]
    rintro rfl
    exact hnew hq
  unfold Kernel.places Yalnix.places
  dsimp only
  rw [hlive, List.map_append, List.sum_append, hothers, List.map_singleton, List.sum_singleton,
    hspace, Function.update_self, huses, hmem]
  omega

/-- One of the first two processes is made. -/
theorem boot_places {state : ProcState} {uctxt : UserContext} {file : Option Exe}
    {args : Option (List (List Byte))} {rc : Int}
    {kStackPt : PageTable → Mem → Option (Mem × PageTable)} (hps : σ.live.Nodup)
    (hnew : σ.nextPid ∉ σ.live)
    (hk : ∀ t m r, kStackPt t m = some r → r.1.pool f + stackUses r.2 f ≤ m.pool f)
    (hboot : σ.bootProc state uctxt kStackPt = some τ)
    (h : τ.loadProgram file args σ.nextPid = some (rc, σ')) : σ'.places f ≤ σ.places f := by
  obtain ⟨-, -, -, -, hlive⟩ := bootProc_space hboot
  refine le_trans ?_ (bootProc_places hnew hk hboot)
  unfold Kernel.places
  rw [((loadProgram_touches h).same .pids (by simp)).2]
  refine loadProgram_places ?_ ?_ h
  · rw [hlive]
    exact hps.append (List.nodup_singleton _) (List.disjoint_singleton.2 hnew)
  · rw [hlive]
    exact List.mem_append_right _ (List.mem_singleton_self _)

theorem initKStack_pool {m : Mem} {t : PageTable} {r : Mem × PageTable}
    (h : initKStack (pages 0 1 2) m t = some r) : r.1.pool f + stackUses r.2 f ≤ m.pool f := by
  have huses := initKStack_uses h f
  unfold Mem.pool
  rw [(initKStack_sameKernel h).kernelUses]
  omega

/-- With no free frame mapped by the kernel, a frame is in one place before there is a
process. -/
theorem empty_places {b : Boot} {m : Mem} (hm : bootMem b = some m)
    (hapart : ∀ g ∈ m.freeFrames, m.kernelUses g = 0) (f : ℕ) : (empty m).places f ≤ 1 := by
  have hfree := List.nodup_iff_count_le_one.1 (bootMem_nodup hm) f
  have hkernel := bootMem_kernelUses_le hm f
  have hpool : m.freeFrames.count f + m.kernelUses f ≤ 1 := by
    by_cases hf : f ∈ m.freeFrames
    · rw [hapart f hf]
      exact hfree
    · rw [List.count_eq_zero.2 hf]
      omega
  exact hpool

/-- After the boot no frame is in two places. -/
theorem kernelStart_places {b : Boot} {σ₀ : Kernel} {m : Mem} (hm : bootMem b = some m)
    (hapart : ∀ g ∈ m.freeFrames, m.kernelUses g = 0) (h : kernelStart b = some σ₀) (f : ℕ) :
    σ₀.places f ≤ 1 := by
  unfold kernelStart at h
  rw [hm, Option.bind_some] at h
  obtain ⟨σ₁, h₁, h⟩ := Option.bind_eq_some_iff.1 h
  obtain ⟨σ₂, h₂, h⟩ := Option.bind_eq_some_iff.1 h
  have hb₁ := initInit_booting (.empty m) h₁
  have hempty := empty_places hm hapart f
  have hinit : σ₁.places f ≤ (empty m).places f := by
    obtain ⟨τ, hτ, h₁⟩ := Option.bind_eq_some_iff.1 h₁
    obtain ⟨⟨rc, τ'⟩, hload, rfl⟩ := Option.map_eq_some_iff.1 h₁
    exact boot_places (σ := empty m) List.nodup_nil List.not_mem_nil
      (fun t m r hr => initKStack_pool hr) hτ hload
  have hidle : σ₂.places f ≤ σ₁.places f := by
    obtain ⟨τ, hτ, h₂⟩ := Option.bind_eq_some_iff.1 h₂
    obtain ⟨⟨rc, τ'⟩, hload, rfl⟩ := Option.map_eq_some_iff.1 h₂
    refine boot_places ?_ ?_ (fun t m r hr => ?_) hτ hload
    · rw [hb₁.live]
      exact List.nodup_singleton _
    · rw [hb₁.live, hb₁.nextPid]
      decide
    · obtain rfl := Option.some.inj hr
      simp [stackUses]
  obtain ⟨r, hr, rfl⟩ := Option.map_eq_some_iff.1 h
  have hready := readyInsert_touches σ₂ idle
  have hqueue : (σ₂.readyInsert idle).2.places f ≤ σ₂.places f := by
    unfold Kernel.places
    rw [(hready.same .pids (by simp)).2]
    refine Refill.places_le ?_ (hready.same .frames (by simp))
    rw [(initIdle_booting hb₁ h₂).live]
    decide
  -- the copy of the first kernel stack
  have hcopy : r.1.freeFrames.count f + stackUses r.2 f ≤
      (σ₂.readyInsert idle).2.mem.freeFrames.count f := initKStack_uses hr f
  have htable := (initKStack_sameKernel hr).table
  refine le_trans ?_ (hqueue.trans (hidle.trans (hinit.trans hempty)))
  refine Nat.add_le_add_right ?_ _
  change r.1.freeFrames.count f + (usesOn kernelPages r.1.krnlPageTable f + stackUses r.2 f) ≤ _
  unfold Mem.pool Mem.kernelUses
  dsimp only
  rw [htable]
  omega

/-! ## Runs -/

/-- The kernel has the frame `f`: in its own page table or as the copy of its first stack, or
for the kernel stack of a process. -/
def KernelFrame (σ : Kernel) (f : ℕ) : Prop :=
  0 < σ.mem.kernelUses f ∨ ∃ q ∈ σ.live, 0 < stackUses (σ.space q).kStackPt f

instance (σ : Kernel) (f : ℕ) : Decidable (σ.KernelFrame f) :=
  inferInstanceAs (Decidable (_ ∨ _))

/-- A frame of the kernel is not free, and no process has a page in it. -/
theorem KernelFrame.alone (hplaces : σ.places f ≤ 1) (h : σ.KernelFrame f) :
    f ∉ σ.mem.freeFrames ∧ ∀ q ∈ σ.live, usesOn userPages (σ.space q).uPageTable f = 0 := by
  rcases h with hkernel | ⟨q, hq, hstack⟩
  · have hpool : σ.mem.freeFrames.count f = 0 ∧
        (σ.live.map fun q => (σ.space q).uses f).sum = 0 := by
      unfold Kernel.places Yalnix.places Mem.pool at hplaces
      dsimp only at hplaces
      omega
    refine ⟨List.count_eq_zero.1 hpool.1, fun r hr => ?_⟩
    have hsum := List.sum_map_erase (fun q => (σ.space q).uses f) hr
    have hnone : (σ.space r).uses f = 0 := by omega
    exact (Nat.add_eq_zero_iff.1 hnone).1
  · have huses : 0 < (σ.space q).uses f := Nat.add_pos_right _ hstack
    obtain ⟨hpool, hone, hothers⟩ := sum_map_alone hplaces hq huses
    refine ⟨List.count_eq_zero.1 (Nat.add_eq_zero_iff.1 hpool).1, fun r hr => ?_⟩
    by_cases hrq : r = q
    · unfold Space.uses at hone
      dsimp only at hone
      rw [hrq]
      omega
    · exact (Nat.add_eq_zero_iff.1 (hothers r hr hrq)).1

/-- A page of a process in a frame counts. -/
theorem not_hasPage (h : usesOn userPages (σ.space p).uPageTable f = 0) : ¬σ.HasPage p f := by
  rintro ⟨i, hi, hv, rfl⟩
  exact absurd h (Nat.ne_of_gt (usesOn_pos (inTable_userPages.2 hi) hv))

end Kernel

end Yalnix
