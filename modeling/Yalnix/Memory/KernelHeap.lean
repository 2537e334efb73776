import Yalnix.Model.Machine

/-!
# The kernel heap below the break

`enable_vmem` and `SetKernelBrk` map the pages up to the one that the break is in, and leave
that page out. While every break is the start of a page this maps the whole heap; otherwise
the last page of the heap is missing, and the next call gives it a frame although it is in
use.
-/

namespace Yalnix

/-- The entry is valid, for reading and writing. -/
def Pte.ReadWrite (e : Pte) : Prop := e.valid = true ∧ e.prot = protRead ||| protWrite

/-- The address is the start of a page. -/
def PageAligned (a : Word) : Prop := a.toNat % 8192 = 0

namespace Mem

/-- The memory after `enable_vmem`. -/
def enableVmem (m : Mem) (dataSegBase dataSegLimit : Word) : Mem :=
  { m with
    krnlPageTable := bootPageTable dataSegBase dataSegLimit m.kernelBrk
    vmemEnabled := true }

/-- All pages with an address from `dataSegLimit` up to the break are mapped. -/
def HeapMapped (dataSegLimit : Word) (m : Mem) : Prop :=
  ∀ a : Word, dataSegLimit ≤ a → a < m.kernelBrk →
    (0 ≤ pageNumber a ∧ pageNumber a < vmem0Pages) ∧ (m.krnlPageTable (pageNumber a)).ReadWrite

/-- The pages with an address below the break have the frames that they had. -/
def FramesKept (m m' : Mem) : Prop :=
  ∀ a : Word, a < m.kernelBrk →
    (m'.krnlPageTable (pageNumber a)).pfn = (m.krnlPageTable (pageNumber a)).pfn

/-- All calls of `SetKernelBrk` with these addresses, one after the other, return 0. -/
def Returns : Mem → List Word → Prop
  | _, [] => True
  | m, addr :: addrs => (m.setKernelBrk addr).1 = 0 ∧ Returns (m.setKernelBrk addr).2 addrs

/-- The heap is mapped, before and after each of these calls, and no call takes a frame away. -/
def HeapKept (dataSegLimit : Word) : Mem → List Word → Prop
  | m, [] => HeapMapped dataSegLimit m
  | m, addr :: addrs => HeapMapped dataSegLimit m ∧ FramesKept m (m.setKernelBrk addr).2 ∧
      HeapKept dataSegLimit (m.setKernelBrk addr).2 addrs

/-- When the heap of `enable_vmem` is mapped: it is empty, or it ends with a page or in the
kernel stack, which is mapped anyway. -/
def BrkFits (dataSegLimit kernelBrk : Word) : Prop :=
  kernelBrk = dataSegLimit ∨
    kernelBrk.toNat ≤ 0x100000 ∧ (PageAligned kernelBrk ∨ 0xfc000 < kernelBrk.toNat)

/-- When calls of `SetKernelBrk` keep it so: each that raises the break does so from the start
of a page to the start of a page, which is a positive `int`. -/
def CallsFit : Word → List Word → Prop
  | _, [] => True
  | kernelBrk, addr :: addrs =>
      (kernelBrk < addr → PageAligned kernelBrk ∧ PageAligned addr ∧ addr.toNat < 2 ^ 31) ∧
        CallsFit (if kernelBrk < addr then addr else kernelBrk) addrs

end Mem

/-! ## Page numbers -/

theorem pageNumber_eq (a : Word) : pageNumber a = a.toInt / 8192 := by
  rw [pageNumber, BitVec.toInt_sshiftRight, Int.shiftRight_eq_div_pow]
  rfl

/-- The addresses of the lower half. -/
theorem pageNumber_of_lt {a : Word} (h : a.toNat < 2 ^ 31) :
    pageNumber a = (a.toNat / 8192 : ℕ) := by
  rw [pageNumber_eq, BitVec.toInt_eq_toNat_of_lt (by omega)]
  rfl

theorem toNat_le_of_pageNumber {a : Word} (h : 0 ≤ pageNumber a ∧ pageNumber a < vmem0Pages) :
    a.toNat < 0x100000 := by
  rw [pageNumber_eq, BitVec.toInt_eq_toNat_cond] at h
  unfold vmem0Pages at h
  have hlt := a.isLt
  split at h
  · omega
  · omega

namespace Mem

variable {m m' : Mem} {base limit a : Word}

/-! ## The loop of `SetKernelBrk` -/

theorem grabAFrame_same (m : Mem) : m.grabAFrame.2.kernelBrk = m.kernelBrk ∧
    m.grabAFrame.2.vmemEnabled = m.vmemEnabled ∧
      m.grabAFrame.2.krnlPageTable = m.krnlPageTable := by
  unfold grabAFrame
  split
  · exact ⟨rfl, rfl, rfl⟩
  · exact ⟨rfl, rfl, rfl⟩

theorem mapKernelPages_brk (n : ℕ) (i : Int) (m : Mem) :
    (m.mapKernelPages n i).2.vmemEnabled = m.vmemEnabled := by
  induction n generalizing i m with
  | zero => rfl
  | succ n ih =>
      unfold mapKernelPages
      dsimp only
      split
      · exact (grabAFrame_same m).2.1
      · exact (ih _ _).trans (grabAFrame_same m).2.1

/-- When the loop finds a frame for every page, the pages it visits are mapped and the others
are as before. -/
theorem mapKernelPages_entry {n : ℕ} {i : Int} (h : (m.mapKernelPages n i).1 = true) (j : Int) :
    if i ≤ j ∧ j < i + n then
      ((m.mapKernelPages n i).2.krnlPageTable j).ReadWrite ∧
        ((m.mapKernelPages n i).2.krnlPageTable j).pfn ≠ 0
    else (m.mapKernelPages n i).2.krnlPageTable j = m.krnlPageTable j := by
  induction n generalizing i m with
  | zero =>
      rw [if_neg (by omega)]
      rfl
  | succ n ih =>
      unfold mapKernelPages at h ⊢
      dsimp only at h ⊢
      split at h
      · exact absurd h (by simp)
      · rename_i hframe
        rw [if_neg hframe]
        have hrest := ih h
        rcases lt_trichotomy j i with hlt | rfl | hgt
        · rw [if_neg (by omega)] at hrest ⊢
          rw [hrest]
          dsimp only
          rw [Function.update_of_ne (by omega), (grabAFrame_same m).2.2]
        · -- the page that this turn of the loop maps is not visited again
          rw [if_neg (by omega)] at hrest
          rw [if_pos (by omega), hrest]
          dsimp only
          rw [Function.update_self]
          exact ⟨⟨rfl, rfl⟩, hframe⟩
        · by_cases hin : j < i + 1 + n
          · rw [if_pos (by omega)] at hrest ⊢
            exact hrest
          · rw [if_neg (by omega)] at hrest ⊢
            rw [hrest]
            dsimp only
            rw [Function.update_of_ne (by omega), (grabAFrame_same m).2.2]

/-! ## The invariant -/

/-- What `enable_vmem` sets up and `SetKernelBrk` keeps: the pages before the one that the
break is in are mapped, and those from there up to the kernel stack are not. A break in the
upper half of the addresses is a negative `int`, of which nothing is said. -/
structure BrkInv (limit : Word) (m : Mem) : Prop where
  enabled : m.vmemEnabled = true
  le : limit ≤ m.kernelBrk
  stack : ∀ i, kernelStackPage ≤ i → i < vmem0Pages → (m.krnlPageTable i).ReadWrite
  below : m.kernelBrk.toNat < 2 ^ 31 → ∀ i, pageNumber limit ≤ i → i < pageNumber m.kernelBrk →
    i < kernelStackPage → (m.krnlPageTable i).ReadWrite
  above : m.kernelBrk.toNat < 2 ^ 31 → ∀ i, pageNumber m.kernelBrk ≤ i → i < kernelStackPage →
    m.krnlPageTable i = {}

theorem brkInv_enableVmem (hbase : base ≤ limit) (hlimit : limit ≤ m.kernelBrk) :
    BrkInv limit (m.enableVmem base limit) where
  enabled := rfl
  le := hlimit
  stack i hi hlt := by
    simp only [enableVmem, bootPageTable, if_pos (And.intro hi hlt)]
    exact ⟨rfl, rfl⟩
  below hsmall i hi hlt hstack := by
    have hlt' : i < pageNumber m.kernelBrk := hlt
    simp only [enableVmem, bootPageTable]
    rw [if_neg (by omega), if_pos ⟨hi, hlt'⟩]
    exact ⟨rfl, rfl⟩
  above hsmall i hi hstack := by
    have hsmall' : m.kernelBrk.toNat < 2 ^ 31 := hsmall
    have hi' : pageNumber m.kernelBrk ≤ i := hi
    have hle₁ : base.toNat ≤ limit.toNat := hbase
    have hle₂ : limit.toNat ≤ m.kernelBrk.toNat := hlimit
    rw [pageNumber_of_lt hsmall'] at hi'
    have hb := pageNumber_of_lt (a := base) (by omega)
    have hl := pageNumber_of_lt (a := limit) (by omega)
    have hk := pageNumber_of_lt hsmall'
    simp only [enableVmem, bootPageTable]
    rw [if_neg (by omega), if_neg (by omega), if_neg (by omega), if_neg (by omega)]

/-- The heap is mapped when the break has a place where that needs no page of its own. -/
theorem heapMapped_iff (h : BrkInv limit m) : HeapMapped limit m ↔ BrkFits limit m.kernelBrk := by
  have hle : limit.toNat ≤ m.kernelBrk.toNat := h.le
  constructor
  · intro hmapped
    by_cases heq : m.kernelBrk = limit
    · exact Or.inl heq
    have hne : limit.toNat ≠ m.kernelBrk.toNat := fun he => heq (BitVec.eq_of_toNat_eq he.symm)
    -- the last address of the heap
    have hone : (m.kernelBrk - 1).toNat = m.kernelBrk.toNat - 1 := by
      bv_omega
    obtain ⟨htable, hentry⟩ := hmapped (m.kernelBrk - 1)
      (show limit.toNat ≤ (m.kernelBrk - 1).toNat by omega)
      (show (m.kernelBrk - 1).toNat < m.kernelBrk.toNat by omega)
    have hlast := toNat_le_of_pageNumber htable
    refine Or.inr ⟨by omega, ?_⟩
    by_contra hbad
    simp only [PageAligned, not_or, not_lt] at hbad
    have hpage : pageNumber (m.kernelBrk - 1) = pageNumber m.kernelBrk := by
      rw [pageNumber_of_lt (by omega), pageNumber_of_lt (by omega)]
      omega
    have hbrk := pageNumber_of_lt (a := m.kernelBrk) (by omega)
    rw [hpage, h.above (by omega) _ (le_refl _) (by unfold kernelStackPage; omega)] at hentry
    exact absurd hentry.1 (by simp)
  · rintro (heq | ⟨hsmall, hplace⟩) a ha hlt
    · have hge : limit.toNat ≤ a.toNat := ha
      have hlt' : a.toNat < m.kernelBrk.toNat := hlt
      rw [heq] at hlt'
      omega
    · have hge : limit.toNat ≤ a.toNat := ha
      have hlt' : a.toNat < m.kernelBrk.toNat := hlt
      have hpage := pageNumber_of_lt (a := a) (by omega)
      have hbrk := pageNumber_of_lt (a := m.kernelBrk) (by omega)
      have hfrom := pageNumber_of_lt (a := limit) (by omega)
      unfold PageAligned at hplace
      have htable : 0 ≤ pageNumber a ∧ pageNumber a < vmem0Pages := by
        unfold vmem0Pages
        omega
      refine ⟨htable, ?_⟩
      by_cases hstack : kernelStackPage ≤ pageNumber a
      · exact h.stack _ hstack htable.2
      · unfold kernelStackPage at hstack
        exact h.below (by omega) _ (by omega) (by omega) (by unfold kernelStackPage; omega)

/-- A call that raises the break to a positive `int`. -/
theorem setKernelBrk_raise (h : BrkInv limit m) (hlt : m.kernelBrk < a)
    (hsmall : a.toNat < 2 ^ 31) (hret : (m.setKernelBrk a).1 = 0) :
    BrkInv limit (m.setKernelBrk a).2 ∧ (m.setKernelBrk a).2.kernelBrk = a ∧
      a.toNat < 0xfc000 ∧ (FramesKept m (m.setKernelBrk a).2 ↔
        PageAligned m.kernelBrk ∨ pageNumber m.kernelBrk = pageNumber a) := by
  have hlt' : m.kernelBrk.toNat < a.toNat := hlt
  have hle : limit.toNat ≤ m.kernelBrk.toNat := h.le
  have hint : a.toInt = a.toNat := BitVec.toInt_eq_toNat_of_lt (by omega)
  unfold setKernelBrk at hret ⊢
  rw [if_neg (by rw [h.enabled]; simp), if_pos hlt] at hret ⊢
  split at hret
  · exact absurd hret (by simp [error])
  rename_i hstack
  rw [if_neg hstack]
  dsimp only at hret ⊢
  split at hret
  swap
  · exact absurd hret (by simp [error])
  rename_i hframes
  rw [if_pos hframes]
  dsimp only
  have hplace : a.toNat < 0xfc000 := by
    rw [hint] at hstack
    unfold kernelStackBase at hstack
    omega
  have hfrom := pageNumber_of_lt (a := limit) (by omega)
  have hbrk := pageNumber_of_lt (a := m.kernelBrk) (by omega)
  have hto := pageNumber_of_lt hsmall
  have hentry := mapKernelPages_entry hframes
  have hcount : ((pageNumber a - pageNumber m.kernelBrk).toNat : Int) =
      pageNumber a - pageNumber m.kernelBrk := by omega
  rw [hcount, add_sub_cancel] at hentry
  refine ⟨⟨?_, ?_, fun i hi hlim => ?_, fun _ i hi hlim hst => ?_, fun _ i hi hst => ?_⟩, rfl,
    hplace, ?_⟩
  · exact (mapKernelPages_brk _ _ m).trans h.enabled
  · exact hle.trans (Nat.le_of_lt hlt')
  · have he := hentry i
    unfold kernelStackPage at hi
    rw [if_neg (by omega)] at he
    rw [he]
    exact h.stack i hi hlim
  · have he := hentry i
    by_cases hnew : pageNumber m.kernelBrk ≤ i
    · rw [if_pos ⟨hnew, hlim⟩] at he
      exact he.1
    · rw [if_neg (by omega)] at he
      rw [he]
      exact h.below (by omega) i hi (by omega) hst
  · have he := hentry i
    have hi' : pageNumber a ≤ i := hi
    rw [if_neg (by omega)] at he
    rw [he]
    exact h.above (by omega) i (by omega) hst
  · constructor
    · intro hkept
      by_contra hbad
      rw [not_or] at hbad
      obtain ⟨hpart, hpages⟩ := hbad
      unfold PageAligned at hpart
      -- the break is in a page with addresses of the heap, and this page gets a frame
      have hone : (m.kernelBrk - 1).toNat = m.kernelBrk.toNat - 1 := by
        bv_omega
      have hpage : pageNumber (m.kernelBrk - 1) = pageNumber m.kernelBrk := by
        rw [pageNumber_of_lt (by omega), pageNumber_of_lt (by omega)]
        omega
      have hsame := hkept (m.kernelBrk - 1)
        (show (m.kernelBrk - 1).toNat < m.kernelBrk.toNat by omega)
      have he := hentry (pageNumber m.kernelBrk)
      rw [if_pos ⟨le_refl _, by omega⟩] at he
      rw [hpage, h.above (by omega) _ (le_refl _) (by unfold kernelStackPage; omega)] at hsame
      exact he.2 hsame
    · intro hfit c hc
      have hc' : c.toNat < m.kernelBrk.toNat := hc
      have hpage := pageNumber_of_lt (a := c) (by omega)
      have he := hentry (pageNumber c)
      unfold PageAligned at hfit
      rw [if_neg (by omega)] at he
      exact congrArg Pte.pfn he

/-! ## Sequences of calls -/

/-- A break in the upper half of the addresses leaves addresses below it that are in no page
of the table. -/
theorem not_heapMapped (hle : limit.toNat < m.kernelBrk.toNat)
    (hbig : 2 ^ 31 ≤ m.kernelBrk.toNat) : ¬HeapMapped limit m := by
  intro hmapped
  have hone : (m.kernelBrk - 1).toNat = m.kernelBrk.toNat - 1 := by
    bv_omega
  have htable := (hmapped (m.kernelBrk - 1)
    (show limit.toNat ≤ (m.kernelBrk - 1).toNat by omega)
    (show (m.kernelBrk - 1).toNat < m.kernelBrk.toNat by omega)).1
  have hlast := toNat_le_of_pageNumber htable
  omega

theorem HeapKept.mapped {addrs : List Word} (h : HeapKept limit m addrs) :
    HeapMapped limit m := by
  cases addrs with
  | nil => exact h
  | cons addr addrs => exact h.1

theorem setKernelBrk_kernelBrk (h : m.vmemEnabled = true) (hret : (m.setKernelBrk a).1 = 0)
    (hlt : m.kernelBrk < a) : (m.setKernelBrk a).2.kernelBrk = a := by
  unfold setKernelBrk at hret ⊢
  rw [if_neg (by rw [h]; simp), if_pos hlt] at hret ⊢
  split at hret
  · exact absurd hret (by simp [error])
  rename_i hstack
  rw [if_neg hstack]
  dsimp only at hret ⊢
  split at hret
  · rename_i hframes
    rw [if_pos hframes]
  · exact absurd hret (by simp [error])

/-- A sequence of calls after the first moment, whatever that was. -/
theorem heapKept_iff_callsFit {addrs : List Word} (h : BrkInv limit m)
    (hmapped : HeapMapped limit m) (hret : Returns m addrs) :
    HeapKept limit m addrs ↔ CallsFit m.kernelBrk addrs := by
  induction addrs generalizing m with
  | nil => exact iff_of_true hmapped trivial
  | cons addr addrs ih =>
      obtain ⟨hcall, hret⟩ := hret
      unfold HeapKept CallsFit
      rw [and_iff_right hmapped]
      by_cases hlt : m.kernelBrk < addr
      swap
      · -- the break stays where it is
        have hsame : m.setKernelBrk addr = (0, m) := by
          unfold setKernelBrk
          rw [if_neg (by rw [h.enabled]; simp), if_neg hlt]
        rw [hsame] at hret ⊢
        rw [if_neg hlt, ← ih h hmapped hret]
        exact ⟨fun hkept => ⟨fun hne => absurd hne hlt, hkept.2⟩,
          fun hkept => ⟨fun _ _ => rfl, hkept.2⟩⟩
      rw [if_pos hlt]
      have hbrk := setKernelBrk_kernelBrk h.enabled hcall hlt
      have hlt' : m.kernelBrk.toNat < addr.toNat := hlt
      have hle : limit.toNat ≤ m.kernelBrk.toNat := h.le
      by_cases hsmall : addr.toNat < 2 ^ 31
      swap
      · refine iff_of_false (fun hkept => ?_) fun hfit => hsmall (hfit.1 hlt).2.2
        exact not_heapMapped (by rw [hbrk]; omega) (by rw [hbrk]; omega) hkept.2.mapped
      obtain ⟨hinv, -, hplace, hframes⟩ := setKernelBrk_raise h hlt hsmall hcall
      have hnew := heapMapped_iff hinv
      rw [hbrk] at hnew
      have hto := pageNumber_of_lt hsmall
      have hfrom := pageNumber_of_lt (a := m.kernelBrk) (by omega)
      have hne : addr ≠ limit := by
        rintro rfl
        omega
      have hfits : BrkFits limit addr ↔ PageAligned addr := by
        unfold BrkFits
        rw [or_iff_right hne]
        constructor
        · rintro ⟨-, hal | hst⟩
          · exact hal
          · omega
        · exact fun hal => ⟨by omega, Or.inl hal⟩
      constructor
      · rintro ⟨hkept, hrest⟩
        have hal := hfits.1 (hnew.1 hrest.mapped)
        have hstart : PageAligned m.kernelBrk := by
          rcases hframes.1 hkept with hal' | hpages
          · exact hal'
          · unfold PageAligned at hal
            omega
        refine ⟨fun _ => ⟨hstart, hal, hsmall⟩, ?_⟩
        rw [← hbrk]
        exact (ih hinv hrest.mapped hret).1 hrest
      · rintro ⟨hfit, hrest⟩
        obtain ⟨hstart, hal, -⟩ := hfit hlt
        refine ⟨hframes.2 (Or.inl hstart), ?_⟩
        rw [← hbrk] at hrest
        exact (ih hinv (hnew.2 (hfits.2 hal)) hret).2 hrest

/-- From the moment when virtual memory is enabled, the heap below the break is mapped and
keeps its frames exactly when the breaks fit. -/
theorem heap_kept_iff (hbase : base ≤ limit) (hlimit : limit ≤ m.kernelBrk) {addrs : List Word}
    (hret : Returns (m.enableVmem base limit) addrs) :
    HeapKept limit (m.enableVmem base limit) addrs ↔
      BrkFits limit m.kernelBrk ∧ CallsFit m.kernelBrk addrs := by
  have hinv := brkInv_enableVmem hbase hlimit
  constructor
  · intro hkept
    exact ⟨(heapMapped_iff hinv).1 hkept.mapped,
      (heapKept_iff_callsFit hinv hkept.mapped hret).1 hkept⟩
  · rintro ⟨hfits, hcalls⟩
    have hmapped := (heapMapped_iff hinv).2 hfits
    exact (heapKept_iff_callsFit hinv hmapped hret).2 hcalls

/-- A memory with the break given and some free frames. -/
def smallMem (brk : Word) : Mem :=
  { freeFrames := [200, 201], krnlPageTable := fun _ => {}, kernelBrk := brk,
    vmemEnabled := false, initialKs := fun _ => {}, mallocs := [] }

theorem heap_kept_iff_small :
    HeapKept 0xa0000 ((smallMem 0xa0000).enableVmem 0x2000 0xa0000) [0xa2000] ↔
      BrkFits 0xa0000 0xa0000 ∧ CallsFit 0xa0000 [0xa2000] :=
  heap_kept_iff (by decide) (by decide) ⟨by decide, trivial⟩

/-- The kernel's data ends within a page and the break is raised a little: the call returns 0,
and the heap between is not mapped. -/
theorem heap_unmapped : (((smallMem 0xa0100).enableVmem 0x2000 0xa0100).setKernelBrk 0xa0200).1 = 0 ∧
    ¬HeapKept 0xa0100 ((smallMem 0xa0100).enableVmem 0x2000 0xa0100) [0xa0200] := by
  refine ⟨by decide, fun hkept => ?_⟩
  have hentry := (hkept.2.2 0xa0100 (by decide) (by decide)).2.1
  exact absurd hentry (by decide)

end Mem

end Yalnix
