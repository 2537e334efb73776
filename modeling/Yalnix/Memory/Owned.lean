import Yalnix.Library.Ledger
import Yalnix.Memory.Space

/-!
# Every frame is in one place

A frame is free, or a process has it: in a valid entry of its user page table, or for its
kernel stack. No step puts a frame where it has not been, or into a second place: what it
takes out of `free_frames` goes to one process, and what it gives back a process has had.
-/

namespace Yalnix

open Transition

/-! ## Counting -/

/-- Whether the entry maps its page to the frame `f`. -/
def Pte.uses (e : Pte) (f : ℕ) : ℕ := if e.valid = true ∧ e.pfn = f then 1 else 0

/-- How many of the pages `is` are mapped to the frame `f`. -/
def usesOn (is : List Int) (t : PageTable) (f : ℕ) : ℕ := (is.map fun i => (t i).uses f).sum

/-- How many of the two pages of a kernel stack, if it has been made, are in the frame `f`. -/
def stackUses (t : PageTable) (f : ℕ) : ℕ :=
  if (t 0).pfn = 0 then 0
  else (if (t 0).pfn = f then 1 else 0) + if (t 1).pfn = f then 1 else 0

/-- How many pages of a process are in the frame `f`. -/
def Space.uses (x : Space) (f : ℕ) : ℕ := usesOn userPages x.uPageTable f + stackUses x.kStackPt f

/-- How often the frame `f` is free or with one of the processes `ps`. -/
def owned (ps : List Pid) (x : Mem × (Pid → Space)) (f : ℕ) : ℕ :=
  x.1.freeFrames.count f + (ps.map fun q => (x.2 q).uses f).sum

/-- How often the frame `f` is free or with a process. -/
def Kernel.owned (σ : Kernel) (f : ℕ) : ℕ := Yalnix.owned σ.live (σ.mem, σ.space) f

section Tables

variable {is : List Int} {t : PageTable} {m : Mem} {f : ℕ} {i : Int} {e : Pte}

theorem usesOn_cons : usesOn (i :: is) t f = (t i).uses f + usesOn is t f := by
  rw [usesOn, usesOn, List.map_cons, List.sum_cons]

theorem usesOn_update_of_not_mem (hi : i ∉ is) :
    usesOn is (Function.update t i e) f = usesOn is t f := by
  unfold usesOn
  simp only [Function.apply_update (fun _ e => Pte.uses e f)]
  exact sum_map_update_of_not_mem hi

theorem usesOn_update_le (his : is.Nodup) :
    usesOn is (Function.update t i e) f ≤ usesOn is t f + e.uses f := by
  by_cases hi : i ∈ is
  · unfold usesOn
    simp only [Function.apply_update (fun _ e => Pte.uses e f)]
    have hsum : (is.map fun j => Function.update (fun j => (t j).uses f) i (e.uses f) j).sum +
        (t i).uses f = (is.map fun j => (t j).uses f).sum + e.uses f := sum_map_update his hi
    omega
  · rw [usesOn_update_of_not_mem hi]
    exact Nat.le_add_right _ _

theorem usesOn_eq_zero (h : ∀ i ∈ is, (t i).valid = false) : usesOn is t f = 0 := by
  unfold usesOn
  apply List.sum_eq_zero
  intro n hn
  obtain ⟨i, hi, rfl⟩ := List.mem_map.1 hn
  simp [Pte.uses, h i hi]

/-- A page that is mapped to the frame counts. -/
theorem usesOn_pos (hi : i ∈ is) (hv : (t i).valid = true) : 0 < usesOn is t (t i).pfn := by
  have hsum := List.sum_map_erase (fun j => (t j).uses (t i).pfn) hi
  have hone : (t i).uses (t i).pfn = 1 := by simp [Pte.uses, hv]
  unfold usesOn
  omega

end Tables

/-! ## The free frames -/

namespace Mem

variable {m : Mem} {f : ℕ}

theorem count_grabAFrame_le (m : Mem) (f : ℕ) :
    m.grabAFrame.2.freeFrames.count f ≤ m.freeFrames.count f := by
  rw [grabAFrame_freeFrames]
  exact (List.tail_sublist _).count_le f

/-- A frame that has been taken is not in the list again. -/
theorem count_grabAFrame (h : m.grabAFrame.1 ≠ 0) (f : ℕ) :
    m.grabAFrame.2.freeFrames.count f + (if m.grabAFrame.1 = f then 1 else 0) =
      m.freeFrames.count f := by
  unfold grabAFrame at h ⊢
  cases hm : m.freeFrames with
  | nil => simp [hm] at h
  | cons g gs => simp [List.count_cons]

theorem mapKernelPages_suffix (n : ℕ) (i : Int) (m : Mem) :
    (m.mapKernelPages n i).2.freeFrames <:+ m.freeFrames := by
  have hgrab : ∀ m : Mem, m.grabAFrame.2.freeFrames <:+ m.freeFrames := fun m => by
    rw [grabAFrame_freeFrames]
    exact List.tail_suffix _
  induction n generalizing i m with
  | zero => exact List.suffix_refl _
  | succ n ih =>
      unfold mapKernelPages
      dsimp only
      split
      · exact hgrab m
      · exact (ih _ _).trans (hgrab m)

theorem setKernelBrk_suffix (m : Mem) (addr : Word) :
    (m.setKernelBrk addr).2.freeFrames <:+ m.freeFrames := by
  unfold setKernelBrk
  split
  · split <;> exact List.suffix_refl _
  split
  swap
  · exact List.suffix_refl _
  split
  · exact List.suffix_refl _
  dsimp only
  split
  · exact mapKernelPages_suffix _ _ m
  · exact mapKernelPages_suffix _ _ m

/-- `malloc` takes frames from the front of the list. -/
theorem malloc_suffix (m : Mem) : m.malloc.2.freeFrames <:+ m.freeFrames := by
  unfold malloc
  split
  · exact List.suffix_refl _
  rename_i a as hm
  have hgrow : ∀ (ws : List (BitVec 31)) (m : Mem), (ws.foldl (fun m addr =>
      (m.setKernelBrk (addr.setWidth 32)).2) m).freeFrames <:+ m.freeFrames := by
    intro ws
    induction ws with
    | nil => exact fun m => List.suffix_refl _
    | cons w ws ih => exact fun m => (ih _).trans (setKernelBrk_suffix m _)
  exact hgrow a.grow { m with mallocs := as }

theorem count_malloc_le (m : Mem) (f : ℕ) :
    m.malloc.2.freeFrames.count f ≤ m.freeFrames.count f := m.malloc_suffix.sublist.count_le f

theorem count_freeFrame_le (m : Mem) (pfn f : ℕ) :
    (m.freeFrame pfn).freeFrames.count f ≤ m.freeFrames.count f + if pfn = f then 1 else 0 := by
  have hmalloc := count_malloc_le m f
  unfold freeFrame
  dsimp only
  split
  · rw [List.count_cons]
    simpa using hmalloc
  · omega

end Mem

section Loops

variable {is : List Int} {t : PageTable} {m : Mem}

/-- The frames that a loop takes go to the page table. -/
theorem grabPages_uses {r : Bool × Mem × PageTable} (h : grabPages is m t = some r) (f : ℕ) :
    r.2.1.freeFrames.count f + usesOn userPages r.2.2 f ≤
      m.freeFrames.count f + usesOn userPages t f := by
  induction is generalizing m t with
  | nil =>
      obtain rfl := Option.some.inj h
      exact le_rfl
  | cons i is ih =>
      rw [grabPages] at h
      split at h
      · obtain rfl := Option.some.inj h
        exact Nat.add_le_add_right (m.count_grabAFrame_le f) _
      split at h
      swap
      · exact absurd h (by simp)
      rename_i hne hi
      have hrest := ih h
      have hcount := Mem.count_grabAFrame hne f
      have hupdate := usesOn_update_le (t := t) (i := i) (f := f)
        (e := ⟨true, protRead ||| protWrite, m.grabAFrame.1⟩) nodup_userPages
      simp only [Pte.uses, true_and] at hupdate
      omega

theorem growStack_uses {r : Mem × PageTable} (h : growStack is m t = some r)
    (href : r.1.refused ≤ m.refused) (f : ℕ) :
    r.1.freeFrames.count f + usesOn userPages r.2 f ≤
      m.freeFrames.count f + usesOn userPages t f := by
  induction is generalizing m t with
  | nil =>
      obtain rfl := Option.some.inj h
      exact le_rfl
  | cons i is ih =>
      rw [growStack] at h
      dsimp only at h
      split at h
      swap
      · exact absurd h (by simp)
      have hle := le_refused_growStack h
      have hne : m.grabAFrame.1 ≠ 0 := by
        intro hzero
        have hlt := Mem.refused_grabAFrame hzero
        omega
      have hrest := ih h (href.trans (Mem.le_refused_grabAFrame m))
      have hcount := Mem.count_grabAFrame hne f
      have hupdate := usesOn_update_le (t := t) (i := i) (f := f)
        (e := ⟨true, protWrite ||| protRead, m.grabAFrame.1⟩) nodup_userPages
      simp only [Pte.uses, true_and] at hupdate
      omega

/-- The frames that a loop gives back come from the page table. -/
theorem freePages_uses (his : is.Nodup) (f : ℕ) :
    (freePages is m t).1.freeFrames.count f ≤ m.freeFrames.count f + usesOn is t f := by
  induction is generalizing m t with
  | nil => exact Nat.le_add_right _ _
  | cons i is ih =>
      obtain ⟨hi, his⟩ := List.nodup_cons.1 his
      rw [usesOn_cons]
      unfold freePages
      split
      · rename_i hv
        have hrest := ih (m := m.freeFrame (t i).pfn)
          (t := Function.update t i { t i with valid := false, prot := 0 }) his
        rw [usesOn_update_of_not_mem hi] at hrest
        have hfree := m.count_freeFrame_le (t i).pfn f
        have huses : (t i).uses f = if (t i).pfn = f then 1 else 0 := by simp [Pte.uses, hv]
        omega
      · have hrest := ih (m := m) (t := t) his
        omega

/-- The frames of a new kernel stack go to the process that it is for. -/
theorem initKStack_uses {r : Mem × PageTable} (h : initKStack (pages 0 1 2) m t = some r)
    (f : ℕ) : r.1.freeFrames.count f + stackUses r.2 f ≤ m.freeFrames.count f := by
  change initKStack [0, 1] m t = some r at h
  simp only [initKStack] at h
  split at h
  · exact absurd h (by simp)
  rename_i hfirst
  split at h
  · exact absurd h (by simp)
  rename_i hsecond
  obtain rfl := Option.some.inj h
  have hcount := Mem.count_grabAFrame hfirst f
  have hcount' := Mem.count_grabAFrame hsecond f
  simp [stackUses, hfirst]
  omega

/-- The frames of copied pages go to the page table of the copy. -/
theorem usesOn_copied (parent : PageTable) (is : List Int) (fs : List ℕ) (f : ℕ) :
    usesOn userPages (assign t is (List.zipWith (copiedEntry parent) is fs)) f ≤
      usesOn userPages t f + (fs.take is.length).count f := by
  induction is generalizing t fs with
  | nil => exact Nat.le_add_right _ _
  | cons i is ih =>
      cases fs with
      | nil => simp
      | cons g gs =>
          have hrest := ih (t := Function.update t i (copiedEntry parent i g)) gs
          have hupdate := usesOn_update_le (t := t) (i := i) (f := f)
            (e := copiedEntry parent i g) nodup_userPages
          have huses : (copiedEntry parent i g).uses f = if g = f then 1 else 0 := by
            simp [copiedEntry, Pte.uses]
          rw [List.zipWith_cons_cons, assign_cons, List.length_cons, List.take_succ_cons,
            List.count_cons]
          simp only [beq_iff_eq]
          omega

end Loops

/-! ## Operations -/

section Operations

variable {ps : List Pid} {f : ℕ}

/-- One process and the list of free frames exchange frames. -/
theorem owned_update {m m' : Mem} {s : Pid → Space} {x : Space} {q : Pid} (hps : ps.Nodup)
    (hpool : q ∉ ps → m'.freeFrames.count f ≤ m.freeFrames.count f)
    (h : m'.freeFrames.count f + x.uses f ≤ m.freeFrames.count f + (s q).uses f) :
    owned ps (m', Function.update s q x) f ≤ owned ps (m, s) f := by
  unfold owned
  dsimp only
  simp only [Function.apply_update (fun _ x => Space.uses x f)]
  exact sum_map_move hps hpool h

theorem Refill.owned_le {x y : Mem × (Pid → Space)} (hps : ps.Nodup) (h : Refill x y) :
    owned ps y f ≤ owned ps x f := by
  refine h.induct (P := fun m s => owned ps (m, s) f ≤ owned ps x f) le_rfl ?_ ?_
  · intro m s hle
    exact (Nat.add_le_add_right (m.count_malloc_le f) _).trans hle
  · intro m s q r hle hq hr
    refine (owned_update hps (fun _ => ?_) ?_).trans hle
    · exact (Nat.le_add_right _ _).trans (initKStack_uses hr f)
    · have huses := initKStack_uses hr f
      unfold Space.uses
      dsimp only
      rw [stackUses.eq_1 (s q).kStackPt, if_pos hq]
      omega

end Operations

namespace Kernel

variable {σ σ' τ : Kernel} {l : Label} {ps : List Pid} {p q : Pid} {o : Outcome} {li : Exe} {f : ℕ}

/-- A loop has exchanged frames with the user page table of `p`. -/
theorem setMap_owned {r : Bool × Mem × PageTable} {x : Space} (hps : ps.Nodup) (hp : p ∈ ps)
    (hx : x.kStackPt = (σ.space p).kStackPt)
    (h : r.2.1.freeFrames.count f + usesOn userPages r.2.2 f ≤
      σ.mem.freeFrames.count f + usesOn userPages (σ.space p).uPageTable f) :
    Yalnix.owned ps ((σ.setMap p r x).mem, (σ.setMap p r x).space) f ≤
      Yalnix.owned ps (σ.mem, σ.space) f := by
  change Yalnix.owned ps (r.2.1, Function.update σ.space p { x with uPageTable := r.2.2 }) f ≤ _
  refine owned_update hps (absurd hp) ?_
  unfold Space.uses
  dsimp only
  rw [hx]
  omega

theorem sysBrk_owned (hps : σ.live.Nodup) (hp : p ∈ σ.live) (h : σ.sysBrk p = some (o, σ')) :
    σ'.owned f ≤ σ.owned f := by
  have hlive := ((sysBrk_touches h).same .pids (by simp)).2
  obtain ⟨r, hgrab, h⟩ := Option.map_eq_some_iff.1 h
  have huses := grabPages_uses hgrab f
  unfold Kernel.owned
  rw [hlive]
  split at h
  · obtain ⟨-, rfl⟩ := Prod.mk.inj h
    exact setMap_owned hps hp (by rfl) huses
  · obtain ⟨-, rfl⟩ := Prod.mk.inj h
    exact setMap_owned hps hp (by rfl) huses

theorem growUserStack_owned (hps : σ.live.Nodup) (hp : p ∈ σ.live)
    (h : σ.growUserStack p = some σ') (href : σ'.mem.refused ≤ σ.mem.refused) :
    σ'.owned f ≤ σ.owned f := by
  obtain ⟨r, hgrow, rfl⟩ := Option.map_eq_some_iff.1 h
  have huses := growStack_uses hgrow href f
  refine owned_update hps (absurd hp) ?_
  unfold Space.uses
  dsimp only
  omega

theorem freedPages_uses (σ : Kernel) (p : Pid) (f : ℕ) :
    (σ.freedPages p).1.freeFrames.count f + usesOn userPages (σ.freedPages p).2 f ≤
      σ.mem.freeFrames.count f + usesOn userPages (σ.space p).uPageTable f := by
  have hinvalid : usesOn userPages (σ.freedPages p).2 f = 0 := by
    apply usesOn_eq_zero
    intro i hi
    rw [freedPages, freePages_table, if_pos hi]
    exact Pte.freed_valid _
  rw [hinvalid]
  exact freePages_uses nodup_userPages f

theorem mapProgram_owned {n : ℕ} {b : Bool} (hps : ps.Nodup) (hp : p ∈ ps)
    (h : σ.mapProgram li n p = some (b, σ')) :
    Yalnix.owned ps (σ'.mem, σ'.space) f ≤ Yalnix.owned ps (σ.mem, σ.space) f := by
  have hfreed := freedPages_uses σ p f
  unfold mapProgram at h
  dsimp only at h
  change (grabPages _ (σ.freedPages p).1 (σ.freedPages p).2).bind _ = _ at h
  obtain ⟨text, htext, h⟩ := Option.bind_eq_some_iff.1 h
  have htextUses := grabPages_uses htext f
  split at h
  · obtain ⟨-, rfl⟩ := Prod.mk.inj (Option.some.inj h)
    exact setMap_owned hps hp (by rfl) (by omega)
  obtain ⟨data, hdata, h⟩ := Option.bind_eq_some_iff.1 h
  have hdataUses := grabPages_uses hdata f
  split at h
  · obtain ⟨-, rfl⟩ := Prod.mk.inj (Option.some.inj h)
    exact setMap_owned hps hp (by rfl) (by omega)
  obtain ⟨stack, hstack, h⟩ := Option.bind_eq_some_iff.1 h
  have hstackUses := grabPages_uses hstack f
  split at h
  · obtain ⟨-, rfl⟩ := Prod.mk.inj (Option.some.inj h)
    exact setMap_owned hps hp (by rfl) (by omega)
  · obtain ⟨-, rfl⟩ := Prod.mk.inj (Option.some.inj h)
    exact setMap_owned hps hp (by rfl) (by omega)

theorem protect_uses (σ : Kernel) (li : Exe) (p q : Pid) :
    ((σ.protect li p).space q).uses f = (σ.space q).uses f := by
  have huser : usesOn userPages ((σ.protect li p).space q).uPageTable f =
      usesOn userPages (σ.space q).uPageTable f := by
    unfold usesOn
    congr 1
    apply List.map_congr_left
    intro i _
    obtain ⟨hvalid, hpfn⟩ := protect_entry σ li p q i
    rw [Pte.uses, Pte.uses, hvalid, hpfn]
  have hstack : ((σ.protect li p).space q).kStackPt = (σ.space q).kStackPt := by
    by_cases hq : q = p
    · rw [hq, protect_self]
    · rw [protect_of_ne hq]
  rw [Space.uses, Space.uses, huser, hstack]

theorem loadProgram_owned {file : Option Exe} {args : Option (List (List Byte))} {rc : Int}
    (hps : ps.Nodup) (hp : p ∈ ps) (h : σ.loadProgram file args p = some (rc, σ')) :
    Yalnix.owned ps (σ'.mem, σ'.space) f ≤ Yalnix.owned ps (σ.mem, σ.space) f := by
  have hmalloc : Yalnix.owned ps (σ.mem.malloc.2, σ.space) f ≤
      Yalnix.owned ps (σ.mem, σ.space) f := Nat.add_le_add_right (σ.mem.count_malloc_le f) _
  rcases loadProgram_space h with ⟨hspace, -, hmem | hmem⟩ |
    ⟨li, -, av, -, b, τ, -, hmap, hmem, hspace, -⟩
  · rw [hmem, hspace]
  · rwa [hmem, hspace]
  · have hmapped := (mapProgram_owned (f := f) hps hp hmap).trans hmalloc
    rw [hmem]
    rcases hspace with hspace | hspace
    · rwa [hspace]
    · rw [hspace]
      unfold Yalnix.owned at hmapped ⊢
      dsimp only at hmapped ⊢
      simp only [protect_uses]
      exact hmapped

/-- The frames of a child are the first ones of the list. -/
theorem Forked.uses_le (h : Forked σ p τ) (hframes : σ.forkFrames p ≤ σ.forkMem.supply.length) :
    (τ.space σ.nextPid).uses f ≤ (σ.forkMem.freeFrames.take (σ.forkFrames p)).count f := by
  have hnone : usesOn userPages (fun _ => {}) f = 0 := usesOn_eq_zero fun _ _ => rfl
  have huser := usesOn_copied (t := fun _ => {}) (σ.space p).uPageTable (σ.space p).validPages
    (σ.forkMem.supply.drop 2) f
  rw [hnone, Nat.zero_add] at huser
  have hstack : stackUses (assign (fun i => σ.malloc.1.fill (userPagetableSize + i)) (pages 0 1 2)
      (σ.forkMem.supply.map Pte.rw)) f ≤ (σ.forkMem.supply.take 2).count f := by
    unfold forkFrames at hframes
    match hs : σ.forkMem.supply with
    | [] => simp [hs] at hframes
    | [_] =>
        rw [hs, List.length_singleton] at hframes
        omega
    | a :: b :: fs =>
        have ha : a ≠ 0 := Mem.ne_zero_of_mem_supply (m := σ.forkMem) (by simp [hs])
        simp [pages, stackUses, Pte.rw, List.count_cons, ha]
        omega
  rw [← Mem.take_supply hframes, forkFrames, List.take_add, List.count_append, h.child]
  exact (Nat.add_le_add huser hstack).trans_eq (Nat.add_comm _ _)

theorem forkMem_suffix (σ : Kernel) : σ.forkMem.freeFrames <:+ σ.mem.freeFrames :=
  (Mem.malloc_suffix _).trans ((Mem.malloc_suffix _).trans (Mem.malloc_suffix _))

theorem Forked.owned_le (h : Forked σ p τ) (hframes : σ.forkFrames p ≤ σ.forkMem.supply.length)
    (hnew : σ.nextPid ∉ σ.live) : τ.owned f ≤ σ.owned f := by
  have huses := h.uses_le (f := f) hframes
  have hmem := (forkMem_suffix σ).sublist.count_le f
  have hsplit := congrArg (List.count f)
    (List.take_append_drop (σ.forkFrames p) σ.forkMem.freeFrames)
  rw [List.count_append] at hsplit
  have hothers : (σ.live.map fun q => (τ.space q).uses f) =
      σ.live.map fun q => (σ.space q).uses f := by
    apply List.map_congr_left
    intro q hq
    rw [h.space q]
    rintro rfl
    exact hnew hq
  unfold Kernel.owned Yalnix.owned
  dsimp only
  rw [h.live, h.mem, Mem.taken_freeFrames, List.map_append, List.sum_append, hothers,
    List.map_singleton, List.sum_singleton]
  omega

/-- The frames of a process that exits become free. -/
theorem freeSpace_owned (hps : ps.Nodup) (hp : p ∈ ps)
    (hstack : ((σ.space p).kStackPt 0).pfn ≠ 0) :
    Yalnix.owned (ps.erase p) ((σ.freeSpace p).mem, (σ.freeSpace p).space) f ≤
      Yalnix.owned ps (σ.mem, σ.space) f := by
  have huser := freePages_uses (m := σ.mem) (t := (σ.space p).uPageTable) nodup_userPages f
  have hkernel := freePages_uses (t := (σ.space p).kStackPt)
    (m := (freePages userPages σ.mem (σ.space p).uPageTable).1) (nodup_pages_up 0 2) f
  have hstackUses : usesOn (pages 0 1 2) (σ.space p).kStackPt f ≤
      stackUses (σ.space p).kStackPt f := by
    have hle : ∀ e : Pte, e.uses f ≤ if e.pfn = f then 1 else 0 := by
      intro e
      unfold Pte.uses
      split
      · rename_i he
        rw [if_pos he.2]
      · exact Nat.zero_le _
    rw [stackUses, if_neg hstack]
    change ([0, 1].map fun i => ((σ.space p).kStackPt i).uses f).sum ≤ _
    simp only [List.map_cons, List.map_nil, List.sum_cons, List.sum_nil, Nat.add_zero]
    exact Nat.add_le_add (hle _) (hle _)
  have hfree : (σ.freeSpace p).mem.freeFrames.count f ≤
      σ.mem.freeFrames.count f + (σ.space p).uses f := by
    change (freePages (pages 0 1 2) (freePages userPages σ.mem (σ.space p).uPageTable).1
      (σ.space p).kStackPt).1.freeFrames.count f ≤ _
    unfold Space.uses
    omega
  have hothers : ((ps.erase p).map fun q => ((σ.freeSpace p).space q).uses f) =
      (ps.erase p).map fun q => (σ.space q).uses f := by
    apply List.map_congr_left
    intro q hq
    have hne := (hps.mem_erase_iff.1 hq).1
    exact congrArg (Space.uses · f) (Function.update_of_ne hne _ _)
  have hsum := List.sum_map_erase (fun q => (σ.space q).uses f) hp
  unfold Yalnix.owned
  dsimp only
  rw [hothers]
  omega

/-- A step brings no frame to a second place. -/
theorem step_owned (hinv : σ.Placed) (hst : σ.Stacked) (h : Steps σ l σ')
    (ha : σ.Allocates l σ') : σ'.owned f ≤ σ.owned f := by
  have hfinish : ∀ (o : Outcome) (τ : Kernel), τ.owned f = (finish (o, τ)).owned f := by
    intro o τ
    cases o <;> rfl
  cases space_step h with
  | refills hrefill hlive =>
      unfold Kernel.owned
      rw [hlive]
      have hle := hrefill.owned_le (f := f) hinv.nodup
      exact hle
  | brk u p o τ hl hc hp hrun he =>
      subst he
      rw [← hfinish]
      exact sysBrk_owned (σ := (σ.begin l).enter u) hinv.nodup (hinv.live_of_active hp) hrun
  | fork u p o τ hl hc hp hrun he =>
      subst he
      have hlive := hinv.live_of_active hp
      obtain ⟨h₀, hlt⟩ := hinv.bound p hlive
      have hsame : τ.mem.refused = ((σ.begin l).enter u).mem.refused := by
        rw [← finish_mem o, ha.2]
        rfl
      obtain ⟨τ', hforked, hframes, -, rfl⟩ := sysFork_forked
        (show ((σ.begin l).enter u).mem.AllOk from ha.begin) h₀ hlt hrun hsame
      have hnew : ((σ.begin l).enter u).nextPid ∉ ((σ.begin l).enter u).live :=
        fun hmem => lt_irrefl _ (hinv.bound _ hmem).2
      have hready := readyInsert_touches τ' ((σ.begin l).enter u).nextPid
      rw [← hfinish]
      refine le_trans ?_ (hforked.owned_le (f := f) hframes hnew)
      unfold Kernel.owned
      rw [(hready.same .pids (by simp)).2]
      refine Refill.owned_le ?_ (hready.same .frames (by simp))
      rw [hforked.live]
      exact hinv.nodup.append (List.nodup_singleton _) (List.disjoint_singleton.2 hnew)
  | exec u p o τ hl hc hp hrun he =>
      subst he
      have hlive := ((sysExec_touches hrun).same .pids (by simp)).2
      rw [← hfinish]
      unfold Kernel.owned
      rw [hlive]
      rcases sysExec_space hrun with ⟨-, rfl⟩ | ⟨rc, τ', hload, hmem, hspace, -⟩
      · exact le_rfl
      · have hle := loadProgram_owned (f := f) hinv.nodup (hinv.live_of_active hp) hload
        rw [hmem, hspace]
        exact hle
  | exit p τ hp hτ hrun hlive _ =>
      have hmem := hinv.live_of_active hp
      have hstack : ((τ.space p).kStackPt 0).pfn ≠ 0 :=
        hτ.stack_ne_zero (hst.stack p (Or.inr hp))
      have hbefore := hτ.owned_le (f := f) hinv.nodup
      have hfree := freeSpace_owned (f := f) hinv.nodup hmem hstack
      have hafter := hrun.owned_le (f := f) (hinv.nodup.erase p)
      unfold Kernel.owned
      rw [hlive]
      exact hafter.trans (hfree.trans hbefore)
  | grow u p τ hl hv hp hfit hrun he =>
      subst he
      have hle := growUserStack_owned (σ := (σ.begin l).enter u) (f := f) hinv.nodup
        (hinv.live_of_active hp) hrun ha.2.le
      exact hle

end Kernel

/-! ## The boot -/

theorem initQueues_suffix {n : ℕ} {m m' : Mem} (h : initQueues n m = some m') :
    m'.freeFrames <:+ m.freeFrames := by
  induction n generalizing m with
  | zero =>
      obtain rfl := Option.some.inj h
      exact List.suffix_refl _
  | succ n ih =>
      unfold initQueues at h
      split at h
      · exact (ih h).trans m.malloc_suffix
      · exact absurd h (by simp)

/-- A loop of `gather_free_frames` inserts each frame once. -/
theorem gatherLoop_nodup (bound : Mem → Int) {is : List Int} {m : Mem} (his : is.Nodup)
    (hpos : ∀ i ∈ is, 0 ≤ i) (hm : m.freeFrames.Nodup)
    (hnew : ∀ i ∈ is, i.toNat ∉ m.freeFrames) :
    (gatherLoop bound is m).2.freeFrames.Nodup ∧
      ∀ f ∈ (gatherLoop bound is m).2.freeFrames,
        f ∈ m.freeFrames ∨ ∃ i ∈ is, ∃ m', bound m' < i ∧ f = i.toNat := by
  induction is generalizing m with
  | nil => exact ⟨hm, fun f hf => Or.inl hf⟩
  | cons i is ih =>
      obtain ⟨hi, his⟩ := List.nodup_cons.1 his
      unfold gatherLoop
      dsimp only
      split
      swap
      · exact ⟨hm, fun f hf => Or.inl hf⟩
      rename_i hlt
      rw [listInsert_last]
      by_cases hok : m.malloc.1.ok = true
      swap
      · rw [if_neg hok, if_pos (show (error, m.freeFrames, m.malloc.2).1 ≠ 0 by simp [error])]
        exact ⟨hm.sublist m.malloc_suffix.sublist, fun f hf => Or.inl (m.malloc_suffix.subset hf)⟩
      rw [if_pos hok, if_neg (by simp)]
      have hnext := ih (m := { m.malloc.2 with freeFrames := m.freeFrames ++ [i.toNat] }) his
        (fun j hj => hpos j (List.mem_cons_of_mem _ hj)) ?_ ?_
      · refine ⟨hnext.1, fun f hf => ?_⟩
        rcases hnext.2 f hf with hf | ⟨j, hj, m', hlt', rfl⟩
        · rcases List.mem_append.1 hf with hf | hf
          · exact Or.inl hf
          · exact Or.inr ⟨i, List.mem_cons_self, m, hlt, List.mem_singleton.1 hf⟩
        · exact Or.inr ⟨j, List.mem_cons_of_mem _ hj, m', hlt', rfl⟩
      · exact hm.append (List.nodup_singleton _)
          (List.disjoint_singleton.2 (hnew i List.mem_cons_self))
      · intro j hj hmem
        rcases List.mem_append.1 hmem with hmem | hmem
        · exact hnew j (List.mem_cons_of_mem _ hj) hmem
        · have hj₀ := hpos j (List.mem_cons_of_mem _ hj)
          have hi₀ := hpos i List.mem_cons_self
          have heq := List.mem_singleton.1 hmem
          have hij : j = i := by omega
          exact hi (hij ▸ hj)

theorem gatherFreeFrames_nodup {n : ℕ} {m : Mem} (hm : m.freeFrames = []) :
    (gatherFreeFrames n m).freeFrames.Nodup := by
  have htop := gatherLoop_nodup (fun _ => vmem0Pages - 1) (m := m)
    (nodup_pages_down ((n : Int) - 1) n)
    (fun i hi => by rw [mem_pages_down] at hi; omega) (by simp [hm]) (by simp [hm])
  unfold gatherFreeFrames
  dsimp only
  split
  swap
  · exact htop.1
  refine (gatherLoop_nodup _ (nodup_pages_down _ _) (fun i hi => ?_) htop.1 fun i hi hmem => ?_).1
  · rw [mem_pages_down, kernelStackPage] at hi
    omega
  -- what the first loop has inserted is above region 0
  · rcases htop.2 _ hmem with hmem | ⟨j, hj, -, hlt, heq⟩
    · rw [hm] at hmem
      exact absurd hmem (by simp)
    · rw [mem_pages_down, kernelStackPage] at hi
      rw [vmem0Pages] at hlt
      omega

theorem bootMem_nodup {b : Boot} {m : Mem} (h : bootMem b = some m) : m.freeFrames.Nodup := by
  obtain ⟨m', hm', h⟩ := Option.bind_eq_some_iff.1 h
  dsimp only at h
  have hnil : m'.freeFrames = [] := List.eq_nil_of_suffix_nil (initQueues_suffix hm')
  have hhead : (Mem.malloc { m' with mallocs := b.gatherMallocs }).2.freeFrames = [] := by
    apply List.eq_nil_of_suffix_nil
    rw [← hnil]
    exact Mem.malloc_suffix { m' with mallocs := b.gatherMallocs }
  split at h
  swap
  · exact absurd h (by simp)
  split at h
  · obtain rfl := Option.some.inj h
    exact gatherFreeFrames_nodup hhead
  · exact absurd h (by simp)

namespace Kernel

variable {σ σ' τ : Kernel} {b : Boot} {σ₀ : Kernel} {f : ℕ}

theorem bootProc_owned {state : ProcState} {uctxt : UserContext}
    {kStackPt : PageTable → Mem → Option (Mem × PageTable)} (hnew : σ.nextPid ∉ σ.live)
    (hk : ∀ t m r, kStackPt t m = some r →
      r.1.freeFrames.count f + stackUses r.2 f ≤ m.freeFrames.count f)
    (h : σ.bootProc state uctxt kStackPt = some σ') : σ'.owned f ≤ σ.owned f := by
  obtain ⟨r, hr, hmem, hspace, hlive⟩ := bootProc_space h
  have hkept := hk _ _ _ hr
  have hmalloc := σ.mem.count_malloc_le f
  have hmalloc' := σ.mem.malloc.2.count_malloc_le f
  have huses : Space.uses { kStackPt := r.2 } f = stackUses r.2 f := by
    unfold Space.uses
    rw [usesOn_eq_zero fun _ _ => rfl, Nat.zero_add]
  have hothers : (σ.live.map fun q => (σ'.space q).uses f) =
      σ.live.map fun q => (σ.space q).uses f := by
    apply List.map_congr_left
    intro q hq
    rw [hspace, Function.update_of_ne]
    rintro rfl
    exact hnew hq
  unfold Kernel.owned Yalnix.owned
  dsimp only
  rw [hlive, List.map_append, List.sum_append, hothers, List.map_singleton, List.sum_singleton,
    hspace, Function.update_self, huses, hmem]
  omega

/-- One of the first two processes is made. -/
theorem boot_owned {state : ProcState} {uctxt : UserContext} {file : Option Exe}
    {args : Option (List (List Byte))} {rc : Int}
    {kStackPt : PageTable → Mem → Option (Mem × PageTable)} (hps : σ.live.Nodup)
    (hnew : σ.nextPid ∉ σ.live)
    (hk : ∀ t m r, kStackPt t m = some r →
      r.1.freeFrames.count f + stackUses r.2 f ≤ m.freeFrames.count f)
    (hboot : σ.bootProc state uctxt kStackPt = some τ)
    (h : τ.loadProgram file args σ.nextPid = some (rc, σ')) : σ'.owned f ≤ σ.owned f := by
  obtain ⟨-, -, -, -, hlive⟩ := bootProc_space hboot
  refine le_trans ?_ (bootProc_owned hnew hk hboot)
  unfold Kernel.owned
  rw [((loadProgram_touches h).same .pids (by simp)).2]
  refine loadProgram_owned ?_ ?_ h
  · rw [hlive]
    exact hps.append (List.nodup_singleton _) (List.disjoint_singleton.2 hnew)
  · rw [hlive]
    exact List.mem_append_right _ (List.mem_singleton_self _)

/-- After the boot no frame is in two places. -/
theorem kernelStart_owned (h : kernelStart b = some σ₀) (f : ℕ) : σ₀.owned f ≤ 1 := by
  unfold kernelStart at h
  obtain ⟨m, hm, h⟩ := Option.bind_eq_some_iff.1 h
  obtain ⟨σ₁, h₁, h⟩ := Option.bind_eq_some_iff.1 h
  obtain ⟨σ₂, h₂, h⟩ := Option.bind_eq_some_iff.1 h
  have hb₁ := initInit_booting (.empty m) h₁
  have hempty : (empty m).owned f ≤ 1 := List.nodup_iff_count_le_one.1 (bootMem_nodup hm) f
  have hinit : σ₁.owned f ≤ (empty m).owned f := by
    obtain ⟨τ, hτ, h₁⟩ := Option.bind_eq_some_iff.1 h₁
    obtain ⟨⟨rc, τ'⟩, hload, rfl⟩ := Option.map_eq_some_iff.1 h₁
    exact boot_owned (σ := empty m) List.nodup_nil List.not_mem_nil
      (fun t m r hr => initKStack_uses hr f) hτ hload
  have hidle : σ₂.owned f ≤ σ₁.owned f := by
    obtain ⟨τ, hτ, h₂⟩ := Option.bind_eq_some_iff.1 h₂
    obtain ⟨⟨rc, τ'⟩, hload, rfl⟩ := Option.map_eq_some_iff.1 h₂
    refine boot_owned ?_ ?_ (fun t m r hr => ?_) hτ hload
    · rw [hb₁.live]
      exact List.nodup_singleton _
    · rw [hb₁.live, hb₁.nextPid]
      decide
    · obtain rfl := Option.some.inj hr
      simp [stackUses]
  obtain ⟨r, hr, rfl⟩ := Option.map_eq_some_iff.1 h
  have hready := readyInsert_touches σ₂ idle
  have hqueue : (σ₂.readyInsert idle).2.owned f ≤ σ₂.owned f := by
    unfold Kernel.owned
    rw [(hready.same .pids (by simp)).2]
    refine Refill.owned_le ?_ (hready.same .frames (by simp))
    rw [(initIdle_booting hb₁ h₂).live]
    decide
  have hkernel := initKStack_uses hr f
  refine le_trans ?_ (hqueue.trans (hidle.trans (hinit.trans hempty)))
  exact Nat.add_le_add_right ((Nat.le_add_right _ _).trans hkernel) _

/-- Where nothing is missing, no frame is ever in two places. -/
theorem run_owned {tr : List (Move Kernel Label)} (hok : ∀ a ∈ b.procMallocs, a.ok = true)
    (h₀ : kernelStart b = some σ₀)
    (h : Run step (fun σ l σ' => σ.Allocates l σ' ∧ σ.IdlePauses l) σ₀ tr σ) (f : ℕ) :
    σ.owned f ≤ 1 := by
  have hall : (σ.Placed ∧ σ.Stacked) ∧ σ.owned f ≤ 1 := by
    refine h.invariant (I := fun σ => (σ.Placed ∧ σ.Stacked) ∧ σ.owned f ≤ 1) ?_ ?_
    · exact ⟨stacked_of_run hok h₀ .start, kernelStart_owned h₀ f⟩
    · rintro σ l σ' ⟨⟨hinv, hst⟩, hle⟩ hs ⟨ha, hi⟩
      exact ⟨⟨hinv.step (step_cases hs) ha hi, hst.step hinv (step_cases hs) ha hi⟩,
        (step_owned hinv hst (step_cases hs) ha).trans hle⟩
  exact hall.2

end Kernel

end Yalnix
