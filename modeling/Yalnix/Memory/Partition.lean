import Yalnix.Memory.KernelHeap
import Yalnix.Memory.Owned

/-!
# Frames at the boot

`gather_free_frames` lists the frames above region 0 and then those from the kernel stack down
to the break, and `enable_vmem` maps the pages below the break to their own frames. The list
nodes come from the heap that grows meanwhile, so the two agree on a frame only if the scan
meets the break where the page table will find it.
-/

namespace Yalnix

namespace Mem

/-- A memory before virtual memory is enabled, where `malloc` raises the break up to the kernel
stack at most. -/
structure Booting (m : Mem) : Prop where
  off : m.vmemEnabled = false
  brk : m.kernelBrk.toNat ≤ 0xfc000
  grows : ∀ a ∈ m.mallocs, ∀ x ∈ a.grow, x.toNat ≤ 0xfc000

/-- Free frames, mapped frames and the kernel stack are apart, no frame is free twice, and
every frame of a machine with `n` is mapped or free. -/
structure Partitioned (n : ℕ) (m : Mem) : Prop where
  apart : ∀ f ∈ m.freeFrames, ¬(kernelStackPage ≤ f ∧ (f : Int) < vmem0Pages) ∧
    ∀ i, 0 ≤ i → i < vmem0Pages → (m.krnlPageTable i).valid = true → (m.krnlPageTable i).pfn ≠ f
  nodup : m.freeFrames.Nodup
  covers : ∀ f < n, f ∈ m.freeFrames ∨
    ∃ i, (0 ≤ i ∧ i < vmem0Pages) ∧ (m.krnlPageTable i).valid = true ∧ (m.krnlPageTable i).pfn = f

/-- No frame from `i` on lies before the page of the break, and all below `i` do, as far as the
machine has them. -/
def BreakAt (n i : ℕ) (m : Mem) : Prop :=
  m.kernelBrk.toNat / 8192 ≤ i ∧ min n i ≤ m.kernelBrk.toNat / 8192

/-- The break is where it should be when the scan of the frames below `i` ends: at a frame that
does not lie above the break, or for which `malloc` fails. -/
def ScanFits (n : ℕ) : ℕ → Mem → Prop
  | 0, m => BreakAt n 0 m
  | i + 1, m =>
      if m.kernelBrk.toNat ≤ i * 8192 then
        if m.malloc.1.ok = true then ScanFits n i m.malloc.2 else BreakAt n (i + 1) m.malloc.2
      else BreakAt n (i + 1) m

variable {m : Mem} {base limit : Word} {n : ℕ}

/-! ## `malloc` while virtual memory is off -/

theorem setKernelBrk_off (h : m.vmemEnabled = false) (a : Word) :
    (m.setKernelBrk a).2 = if a > m.kernelBrk then { m with kernelBrk := a } else m := by
  rw [setKernelBrk, if_pos h]

theorem grow_booting {l : List (BitVec 31)} (hl : ∀ x ∈ l, x.toNat ≤ 0xfc000) (h : m.Booting) :
    let m' := l.foldl (fun m addr => (m.setKernelBrk (addr.setWidth 32)).2) m
    m'.Booting ∧ m'.freeFrames = m.freeFrames ∧ m.kernelBrk.toNat ≤ m'.kernelBrk.toNat := by
  induction l generalizing m with
  | nil => exact ⟨h, rfl, le_refl _⟩
  | cons x l ih =>
      have hx := hl x List.mem_cons_self
      have hwidth : (x.setWidth 32).toNat = x.toNat := by
        rw [BitVec.toNat_setWidth, Nat.mod_eq_of_lt (by omega)]
      have hl' : ∀ y ∈ l, y.toNat ≤ 0xfc000 := fun y hy => hl y (List.mem_cons_of_mem x hy)
      rw [List.foldl_cons, setKernelBrk_off h.off]
      split
      · rename_i hgt
        have hgt' : m.kernelBrk.toNat < (x.setWidth 32).toNat := hgt
        obtain ⟨hboot, hfree, hle⟩ :=
          ih (m := { m with kernelBrk := x.setWidth 32 }) hl'
            ⟨h.off, by dsimp only; omega, h.grows⟩
        refine ⟨hboot, hfree, ?_⟩
        dsimp only at hle
        omega
      · exact ih hl' h

theorem malloc_nil (h : m.mallocs = []) : m.malloc = (default, m) := by
  rw [malloc, h]

theorem malloc_cons {a : Malloc} {as : List Malloc} (h : m.mallocs = a :: as) :
    m.malloc = (a, a.grow.foldl (fun m addr => (m.setKernelBrk (addr.setWidth 32)).2)
      { m with mallocs := as }) := by
  rw [malloc, h]

theorem malloc_booting (h : m.Booting) : m.malloc.2.Booting ∧
    m.malloc.2.freeFrames = m.freeFrames ∧ m.kernelBrk.toNat ≤ m.malloc.2.kernelBrk.toNat := by
  cases hm : m.mallocs with
  | nil =>
      rw [malloc_nil hm]
      exact ⟨h, rfl, le_refl _⟩
  | cons a as =>
      rw [malloc_cons hm]
      have hgrows : ∀ b ∈ a :: as, ∀ x ∈ b.grow, x.toNat ≤ 0xfc000 := hm ▸ h.grows
      exact grow_booting (m := { m with mallocs := as }) (hgrows a List.mem_cons_self)
        ⟨h.off, h.brk, fun b hb => hgrows b (List.mem_cons_of_mem a hb)⟩

/-- What `malloc` does does not depend on the frames that are listed already. -/
theorem malloc_freeFrames (h : m.vmemEnabled = false) (fs : List ℕ) :
    ({ m with freeFrames := fs } : Mem).malloc =
      (m.malloc.1, { m.malloc.2 with freeFrames := fs }) := by
  have hgrow : ∀ (l : List (BitVec 31)) (m : Mem), m.vmemEnabled = false →
      l.foldl (fun m addr => (m.setKernelBrk (addr.setWidth 32)).2)
          ({ m with freeFrames := fs } : Mem) =
        { l.foldl (fun m addr => (m.setKernelBrk (addr.setWidth 32)).2) m with
          freeFrames := fs } := by
    intro l
    induction l with
    | nil => exact fun _ _ => rfl
    | cons x l ih =>
        intro m h
        rw [List.foldl_cons, List.foldl_cons, setKernelBrk_off h, setKernelBrk_off (by exact h)]
        dsimp only
        split
        · exact ih { m with kernelBrk := x.setWidth 32 } h
        · exact ih m h
  rcases hm : m.mallocs.isEmpty with _ | _
  · obtain ⟨a, as, hm⟩ := List.exists_cons_of_ne_nil (List.isEmpty_eq_false_iff.1 hm)
    rw [malloc_cons (m := { m with freeFrames := fs }) hm, malloc_cons hm]
    exact congrArg (Prod.mk a) (hgrow a.grow { m with mallocs := as } h)
  · have hm := List.isEmpty_iff.1 hm
    rw [malloc_nil (m := { m with freeFrames := fs }) hm, malloc_nil hm]

theorem scanFits_freeFrames (h : m.Booting) (fs : List ℕ) (i : ℕ) :
    ScanFits n i { m with freeFrames := fs } ↔ ScanFits n i m := by
  induction i generalizing m with
  | zero => exact Iff.rfl
  | succ i ih =>
      unfold ScanFits
      rw [malloc_freeFrames h.off]
      dsimp only
      rw [ih (malloc_booting h).1]
      rfl

/-! ## The two loops -/

theorem afterMallocs_booting (h : m.Booting) (k : ℕ) : (m.afterMallocs k).Booting ∧
    (m.afterMallocs k).freeFrames = m.freeFrames ∧
      m.kernelBrk.toNat ≤ (m.afterMallocs k).kernelBrk.toNat := by
  induction k generalizing m with
  | zero => exact ⟨h, rfl, le_refl _⟩
  | succ k ih =>
      obtain ⟨hboot, hfree, hle⟩ := malloc_booting h
      obtain ⟨hboot', hfree', hle'⟩ := ih hboot
      exact ⟨hboot', hfree'.trans hfree, hle.trans hle'⟩

theorem afterMallocs_freeFrames (h : m.Booting) (fs : List ℕ) (k : ℕ) :
    ({ m with freeFrames := fs } : Mem).afterMallocs k =
      { m.afterMallocs k with freeFrames := fs } := by
  induction k generalizing m with
  | zero => rfl
  | succ k ih =>
      rw [afterMallocs, malloc_freeFrames h.off]
      exact ih (malloc_booting h).1

theorem mallocOk_freeFrames (h : m.Booting) (fs : List ℕ) (k : ℕ) :
    ({ m with freeFrames := fs } : Mem).mallocOk k = m.mallocOk k := by
  rw [mallocOk, afterMallocs_freeFrames h, malloc_freeFrames (afterMallocs_booting h k).1.off]
  rfl

/-- The first loop lists the frames above region 0, or it stops before it has come to the
lowest of them. -/
theorem gatherLoop_top (h : m.Booting) :
    (∀ k < n - 128, m.mallocOk k = true) ∧
      (∃ fs, gatherLoop (fun _ => vmem0Pages - 1) (pages (n - 1) (-1) n) m =
        (true, { m.afterMallocs (n - 128) with freeFrames := fs }) ∧
        ∀ f, f ∈ fs ↔ f ∈ m.freeFrames ∨ 128 ≤ f ∧ f < n) ∨
    (∃ k < n - 128, m.mallocOk k = false) ∧
      (gatherLoop (fun _ => vmem0Pages - 1) (pages (n - 1) (-1) n) m).1 = false ∧
      ∀ f ∈ (gatherLoop (fun _ => vmem0Pages - 1) (pages (n - 1) (-1) n) m).2.freeFrames,
        f ∈ m.freeFrames ∨ 128 < f := by
  induction n generalizing m with
  | zero =>
      refine Or.inl ⟨fun k hk => absurd hk (by omega), m.freeFrames, rfl, fun f => ?_⟩
      simp
  | succ n ih =>
      have hfirst : pages ((n + 1 : ℕ) - 1) (-1) (n + 1) = (n : Int) :: pages (n - 1) (-1) n := by
        rw [pages]
        congr 1
        · omega
        · congr 1
          omega
      rw [hfirst]
      unfold gatherLoop
      dsimp only
      by_cases hlow : n < 128
      · rw [if_neg (by unfold vmem0Pages; omega)]
        have hzero : n + 1 - 128 = 0 := by omega
        rw [hzero]
        refine Or.inl ⟨fun k hk => absurd hk (by omega), m.freeFrames, rfl, fun f => ?_⟩
        constructor
        · exact Or.inl
        · rintro (hf | hf)
          · exact hf
          · omega
      have hcount : n + 1 - 128 = (n - 128) + 1 := by omega
      obtain ⟨hboot, hfree, -⟩ := malloc_booting h
      rw [if_pos (by unfold vmem0Pages; omega), listInsert_last, hcount]
      by_cases hok : m.malloc.1.ok = true
      swap
      · rw [if_neg hok, if_pos (show (error, m.freeFrames, m.malloc.2).1 ≠ 0 by simp [error])]
        refine Or.inr ⟨⟨0, by omega, eq_false_of_ne_true hok⟩, rfl, fun f hf => Or.inl ?_⟩
        rw [← hfree]
        exact hf
      rw [if_pos hok, if_neg (by simp)]
      dsimp only
      have hcast : ((n : Int)).toNat = n := Int.toNat_natCast n
      rw [hcast]
      have hok₁ : ∀ k, ({ m.malloc.2 with freeFrames := m.freeFrames ++ [n] } : Mem).mallocOk k =
          m.mallocOk (k + 1) := fun k => mallocOk_freeFrames hboot _ k
      rcases ih (m := { m.malloc.2 with freeFrames := m.freeFrames ++ [n] })
        ⟨hboot.off, hboot.brk, hboot.grows⟩ with
          ⟨hall, fs, hfs, hmem⟩ | ⟨⟨k, hk, hfail⟩, hstop, hmem⟩
      · refine Or.inl ⟨fun k hk => ?_, fs, ?_, fun f => ?_⟩
        · cases k with
          | zero => exact hok
          | succ k => exact (hok₁ k).symm.trans (hall k (by omega))
        · rw [hfs, afterMallocs_freeFrames hboot, afterMallocs]
        · rw [hmem f, List.mem_append, List.mem_singleton, or_assoc]
          apply or_congr_right
          omega
      · refine Or.inr ⟨⟨k + 1, by omega, (hok₁ k).symm.trans hfail⟩, hstop, fun f hf => ?_⟩
        rcases hmem f hf with hf | hf
        · rcases List.mem_append.1 hf with hf | hf
          · exact Or.inl hf
          · have hfn := List.mem_singleton.1 hf
            right
            omega
        · exact Or.inr hf

/-- Clearing the offset does not change the page. -/
theorem sshiftRight_pageMask (w : Word) :
    (w &&& pageMask).sshiftRight pageShift = w.sshiftRight pageShift := by
  have hbit : ∀ j, 13 ≤ j → pageOffset.getLsbD j = false := by
    intro j hj
    have hlt : 8191 < 2 ^ j :=
      Nat.lt_of_lt_of_le (by decide) (Nat.pow_le_pow_right (by decide) hj)
    unfold pageOffset
    rw [BitVec.getLsbD_ofNat, Nat.testBit_lt_two_pow hlt, Bool.and_false]
  have hmsb : pageOffset.msb = false := by decide
  apply BitVec.eq_of_getLsbD_eq
  intro i hi
  unfold pageMask pageShift
  rw [BitVec.getLsbD_sshiftRight, BitVec.getLsbD_sshiftRight]
  simp only [BitVec.getLsbD_and, BitVec.getLsbD_not, BitVec.msb_and, BitVec.msb_not]
  split
  · rename_i hlt
    rw [hbit (13 + i) (by omega)]
    simp [hlt]
  · rw [hmsb]
    simp

/-- The page of the break, rounded up. -/
theorem pageNumber_upToPage {a : Word} (h : a.toNat ≤ 0xfc000) :
    pageNumber (upToPage a) = ((a.toNat + 8191) / 8192 : ℕ) := by
  have hsum : (a + pageOffset).toNat = a.toNat + 8191 := by
    unfold pageOffset
    bv_omega
  rw [upToPage, pageNumber, sshiftRight_pageMask]
  exact (pageNumber_of_lt (a := a + pageOffset) (by omega)).trans (by rw [hsum])

/-- The second loop stops at some frame `s` and has listed those from there on; the break is
then where it should be exactly if the scan fits. -/
theorem gatherLoop_low (i : ℕ) (h : m.Booting) (hi : i ≤ 126) :
    let r := gatherLoop (fun m => pageNumber (upToPage m.kernelBrk) - 1) (pages (i - 1) (-1) i) m
    r.2.Booting ∧ m.kernelBrk.toNat ≤ r.2.kernelBrk.toNat ∧
      ∃ s ≤ i, (∀ f, f ∈ r.2.freeFrames ↔ f ∈ m.freeFrames ∨ s ≤ f ∧ f < i) ∧
        (ScanFits n i m ↔ BreakAt n s r.2) := by
  induction i generalizing m with
  | zero =>
      refine ⟨h, le_refl _, 0, le_refl _, fun f => ?_, Iff.rfl⟩
      simp [gatherLoop, pages]
  | succ i ih =>
      have hfirst : pages ((i + 1 : ℕ) - 1) (-1) (i + 1) = (i : Int) :: pages (i - 1) (-1) i := by
        rw [pages]
        congr 1
        · omega
        · congr 1
          omega
      have htest : ((i : Int) > pageNumber (upToPage m.kernelBrk) - 1) ↔
          m.kernelBrk.toNat ≤ i * 8192 := by
        rw [pageNumber_upToPage h.brk]
        omega
      rw [hfirst]
      unfold gatherLoop ScanFits
      dsimp only
      by_cases hup : m.kernelBrk.toNat ≤ i * 8192
      swap
      · rw [if_neg (fun hgt => hup (htest.1 hgt)), if_neg hup]
        exact ⟨h, le_refl _, i + 1, le_refl _, fun f => (or_iff_left (by omega)).symm, Iff.rfl⟩
      obtain ⟨hboot, hfree, hle⟩ := malloc_booting h
      rw [if_pos (htest.2 hup), if_pos hup, listInsert_last]
      by_cases hok : m.malloc.1.ok = true
      swap
      · rw [if_neg hok, if_neg hok,
          if_pos (show (error, m.freeFrames, m.malloc.2).1 ≠ 0 by simp [error])]
        refine ⟨hboot, hle, i + 1, le_refl _, fun f => ?_, Iff.rfl⟩
        dsimp only
        rw [hfree, or_iff_left (by omega)]
      rw [if_pos hok, if_pos hok, if_neg (by simp)]
      dsimp only
      have hcast : ((i : Int)).toNat = i := Int.toNat_natCast i
      rw [hcast]
      obtain ⟨hboot', hle', s, hs, hmem, hfits⟩ := ih
        (m := { m.malloc.2 with freeFrames := m.freeFrames ++ [i] })
        ⟨hboot.off, hboot.brk, hboot.grows⟩ (by omega)
      refine ⟨hboot', hle.trans hle', s, by omega, fun f => ?_, ?_⟩
      · rw [hmem f, List.mem_append, List.mem_singleton, or_assoc]
        apply or_congr_right
        omega
      · rw [← hfits]
        exact (scanFits_freeFrames hboot _ i).symm

/-! ## The partition -/

/-- `enable_vmem` maps a page to the frame with its own number. -/
theorem bootPageTable_pfn {brk : Word} {i : Int}
    (h : (bootPageTable base limit brk i).valid = true) :
    (bootPageTable base limit brk i).pfn = i.toNat := by
  unfold bootPageTable at h ⊢
  split
  · rfl
  split
  · rfl
  split
  · rfl
  split
  · rfl
  · simp_all

/-- What `enable_vmem` maps below a break up to the kernel stack: the pages before the one that
the break is in, and the stack. -/
theorem bootPageTable_valid (hbase : base ≤ limit) (hlimit : limit ≤ m.kernelBrk)
    (hbrk : m.kernelBrk.toNat ≤ 0xfc000) {i : Int} (h₀ : 0 ≤ i) (hi : i < vmem0Pages) :
    (bootPageTable base limit m.kernelBrk i).valid = true ↔
      i < m.kernelBrk.toNat / 8192 ∨ kernelStackPage ≤ i := by
  have hle₁ : base.toNat ≤ limit.toNat := hbase
  have hle₂ : limit.toNat ≤ m.kernelBrk.toNat := hlimit
  have hb := pageNumber_of_lt (a := base) (by omega)
  have hl := pageNumber_of_lt (a := limit) (by omega)
  have hk := pageNumber_of_lt (a := m.kernelBrk) (by omega)
  unfold bootPageTable
  split
  · rename_i hstack
    exact iff_of_true rfl (Or.inr hstack.1)
  split
  · exact iff_of_true rfl (Or.inl (by omega))
  split
  · exact iff_of_true rfl (Or.inl (by omega))
  split
  · exact iff_of_true rfl (Or.inl (by omega))
  · exact iff_of_false (by simp) (by omega)

/-- With the frames above region 0 and those from `s` to the kernel stack free, the break
decides. -/
theorem partitioned_iff {s : ℕ} (hs : s ≤ 126) (hbase : base ≤ limit)
    (hlimit : limit ≤ m.kernelBrk) (hbrk : m.kernelBrk.toNat ≤ 0xfc000)
    (hnodup : m.freeFrames.Nodup)
    (hmem : ∀ f, f ∈ m.freeFrames ↔ 128 ≤ f ∧ f < n ∨ s ≤ f ∧ f < 126) :
    Partitioned n (m.enableVmem base limit) ↔ BreakAt n s m := by
  have hmaps : ∀ {i : Int}, 0 ≤ i → i < vmem0Pages →
      (((m.enableVmem base limit).krnlPageTable i).valid = true ↔
        i < m.kernelBrk.toNat / 8192 ∨ kernelStackPage ≤ i) :=
    fun h₀ hi => bootPageTable_valid hbase hlimit hbrk h₀ hi
  unfold BreakAt
  constructor
  · intro h
    constructor
    · -- the lowest frame that is free is not mapped
      by_contra hlt
      have hfree : s ∈ m.freeFrames := (hmem s).2 (Or.inr ⟨le_refl _, by omega⟩)
      have hpage := hmaps (i := s) (by omega) (by unfold vmem0Pages; omega)
      have hvalid := hpage.2 (Or.inl (by omega))
      exact (h.apart s hfree).2 s (by omega) (by unfold vmem0Pages; omega) hvalid
        ((bootPageTable_pfn hvalid).trans (Int.toNat_natCast s))
    · by_contra hlt
      -- the frame of the break is neither
      rcases h.covers (m.kernelBrk.toNat / 8192) (by omega) with hfree | ⟨i, ⟨h₀, hi⟩, hvalid, hpfn⟩
      · rcases (hmem _).1 hfree with hin | hin
        · omega
        · omega
      · have hpfn' := (bootPageTable_pfn hvalid).symm.trans hpfn
        rcases (hmaps h₀ hi).1 hvalid with hin | hin
        · omega
        · unfold kernelStackPage at hin
          omega
  · rintro ⟨hlow, hhigh⟩
    refine ⟨fun f hf => ⟨?_, fun i h₀ hi hvalid hpfn => ?_⟩, hnodup, fun f hf => ?_⟩
    · unfold kernelStackPage vmem0Pages
      rcases (hmem f).1 hf with hin | hin
      · omega
      · omega
    · have hpfn' := (bootPageTable_pfn hvalid).symm.trans hpfn
      have hplace := (hmaps h₀ hi).1 hvalid
      unfold kernelStackPage at hplace
      unfold vmem0Pages at hi
      rcases (hmem f).1 hf with hin | hin
      · omega
      · omega
    · by_cases hfree : 128 ≤ f ∧ f < n ∨ s ≤ f ∧ f < 126
      · exact Or.inl ((hmem f).2 hfree)
      · have hpage := hmaps (i := f) (by omega) (by unfold vmem0Pages; omega)
        have hvalid := hpage.2 (by unfold kernelStackPage; omega)
        exact Or.inr ⟨f, ⟨by omega, by unfold vmem0Pages; omega⟩, hvalid,
          (bootPageTable_pfn hvalid).trans (Int.toNat_natCast f)⟩

/-- The boot leaves every frame either mapped or free exactly when the frames above region 0 can
be listed and the scan of those below the kernel stack fits. -/
theorem boot_partition_iff (hbase : base ≤ limit) (hlimit : limit ≤ m.kernelBrk)
    (hboot : m.Booting) (hfree : m.freeFrames = []) :
    Partitioned n ((gatherFreeFrames n m).enableVmem base limit) ↔
      (∀ k < n - 128, m.mallocOk k = true) ∧ ScanFits n 126 (m.afterMallocs (n - 128)) := by
  have hnodup := gatherFreeFrames_nodup (n := n) hfree
  unfold gatherFreeFrames at hnodup ⊢
  dsimp only at hnodup ⊢
  rcases gatherLoop_top (n := n) hboot with ⟨hall, fs, htop, hmem⟩ | ⟨⟨k, hk, hfail⟩, hstop, hmem⟩
  · rw [and_iff_right hall]
    rw [htop] at hnodup ⊢
    clear hall htop
    generalize n - 128 = top at hnodup ⊢
    obtain ⟨hboot₁, -, hle₁⟩ := afterMallocs_booting hboot top
    rw [if_pos rfl] at hnodup ⊢
    obtain ⟨hboot₂, hle₂, s, hs, hlow, hfits⟩ :=
      gatherLoop_low (n := n) (m := { m.afterMallocs top with freeFrames := fs }) 126
        ⟨hboot₁.off, hboot₁.brk, hboot₁.grows⟩ (Nat.le_refl 126)
    rw [← scanFits_freeFrames hboot₁ fs, hfits]
    have hlimit' : limit.toNat ≤ m.kernelBrk.toNat := hlimit
    refine partitioned_iff hs hbase ?_ hboot₂.brk hnodup fun f => ?_
    · exact hlimit'.trans (hle₁.trans hle₂)
    · refine (hlow f).trans ?_
      dsimp only
      rw [hmem f, hfree]
      simp
  · -- frame 128 is not listed, and no page of region 0 is in it
    rw [if_neg (by rw [hstop]; simp)]
    refine iff_of_false (fun h => ?_) fun h => absurd (hfail.symm.trans (h.1 k hk)) (by simp)
    rcases h.covers 128 (by omega) with hin | ⟨i, ⟨h₀, hi⟩, hvalid, hpfn⟩
    · rcases hmem 128 hin with hin | hin
      · rw [hfree] at hin
        exact absurd hin (by simp)
      · omega
    · have hpfn' := (bootPageTable_pfn hvalid).symm.trans hpfn
      unfold vmem0Pages at hi
      omega

theorem booting_smallMem {brk : Word} (h : brk.toNat ≤ 0xfc000) :
    Booting { smallMem brk with freeFrames := [] } :=
  ⟨rfl, h, fun a ha => absurd ha (by simp [smallMem])⟩

theorem boot_partition_iff_small :
    Partitioned 160 ((gatherFreeFrames 160 { smallMem 0xa0000 with freeFrames := [] }).enableVmem
        0x2000 0xa0000) ↔
      (∀ k < 160 - 128, Mem.mallocOk { smallMem 0xa0000 with freeFrames := [] } k = true) ∧
        ScanFits 160 126 (afterMallocs { smallMem 0xa0000 with freeFrames := [] } (160 - 128)) :=
  boot_partition_iff (by decide) (by decide) (booting_smallMem (by decide)) rfl

/-- The kernel's data ends within a page, and the heap does not grow: the frame of that page is
neither mapped nor free. -/
theorem boot_frame_lost : ¬Partitioned 160
    ((gatherFreeFrames 160 { smallMem 0xa0100 with freeFrames := [] }).enableVmem
      0x2000 0xa0100) := by
  have hfree : 80 ∉ (gatherFreeFrames 160 { smallMem 0xa0100 with freeFrames := [] }).freeFrames ∧
      (bootPageTable 0x2000 0xa0100 (gatherFreeFrames 160
        { smallMem 0xa0100 with freeFrames := [] }).kernelBrk 80).valid = false := by
    decide +kernel
  intro h
  rcases h.covers 80 (by decide) with hin | ⟨i, ⟨h₀, hi⟩, hvalid, hpfn⟩
  · exact hfree.1 hin
  · have hpage : i = 80 := by
      have hpfn' := (bootPageTable_pfn hvalid).symm.trans hpfn
      omega
    subst hpage
    exact absurd (hfree.2.symm.trans hvalid) (by simp)

end Mem

end Yalnix
