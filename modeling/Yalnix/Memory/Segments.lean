import Yalnix.Library.Cover
import Yalnix.Memory.Loaded

/-!
# What the loader checks of an executable

`load_program` tests the entry point and the sum of the stack and everything up to the end of
the data against the size of the page table. It does not look at the text segment, at where
the data begins in its page, or at the bounds of the bss. `LoadSafe` is what these tests would
have to ensure, and it comes to inequalities between the fields of the executable.
-/

namespace Yalnix

namespace Exe

/-- The address `a` lies in a page that the call maps. -/
def Mapped (li : Exe) (n : ℕ) (a : Word) : Prop :=
  (vmem1Base ≤ a ∧ a < vmem1Limit) ∧ pageNumber (a - vmem1Base) ∈ li.programPages n

/-- With `n` pages of stack, every index that the call writes is in the table, the three ranges
of pages do not overlap, and what is read and cleared stays in the pages that are mapped. -/
structure LoadSafe (li : Exe) (n : ℕ) : Prop where
  index : ∀ (σ : Kernel) (p : Pid), σ.mapProgram li n p ≠ none
  apart : li.textPages.Disjoint li.dataPages ∧ li.textPages.Disjoint (topPages n) ∧
    li.dataPages.Disjoint (topPages n)
  text : ∀ k < li.textSize, li.Mapped n (li.tVaddr + BitVec.ofNat 32 k)
  data : ∀ k < li.dataSize, li.Mapped n (li.idVaddr + BitVec.ofNat 32 k)
  bss : ∀ k < (li.udEnd - li.idEnd).toNat, li.Mapped n (li.idEnd + BitVec.ofNat 32 k)

/-- The call returns `ERROR` and changes nothing, or what it maps and writes is as it should
be. -/
def LoaderChecks (li : Exe) (args : List (List Byte)) : Prop :=
  (∀ (σ : Kernel) (p : Pid), σ.loadProgram (some li) (some args) p = some (error, σ)) ∨
    li.LoadSafe (stackNpg args).toNat

/-- The three ranges of pages. -/
def runs (li : Exe) (n : ℕ) : List (Int × ℕ) :=
  [(li.textPg1, li.tNpg.toNat), (li.dataPg1, li.dataNpg.toNat), (userPagetableSize - n, n)]

/-- Text and data end below the stack, and one of them ends before the other begins. -/
def RangesFit (li : Exe) (n : ℕ) : Prop :=
  (li.tNpg.toNat = 0 ∨ li.textPg1 + li.tNpg.toNat + n ≤ userPagetableSize) ∧
    (li.dataNpg.toNat = 0 ∨ li.dataPg1 + li.dataNpg.toNat + n ≤ userPagetableSize) ∧
    n ≤ userPagetableSize ∧
    (li.tNpg.toNat = 0 ∨ li.dataNpg.toNat = 0 ∨ li.textPg1 + li.tNpg.toNat ≤ li.dataPg1 ∨
      li.dataPg1 + li.dataNpg.toNat ≤ li.textPg1)

/-- From the page of the first to the page of the last of the `size` bytes at `a`, there are as
many pages as the three ranges have there. -/
def Covers (li : Exe) (n : ℕ) (a : Word) (size : ℕ) : Prop :=
  let first := (a - vmem1Base).toNat / 8192
  let last := ((a - vmem1Base).toNat + size - 1) / 8192
  size = 0 ∨ ((li.runs n).map (shared first (last + 1))).sum = last + 1 - first

instance (li : Exe) (n : ℕ) : Decidable (li.RangesFit n) :=
  inferInstanceAs (Decidable (_ ∧ _ ∧ _ ∧ _))

instance (li : Exe) (n : ℕ) (a : Word) (size : ℕ) : Decidable (li.Covers n a size) :=
  inferInstanceAs (Decidable (_ ∨ _))

end Exe

variable {li : Exe} {args : List (List Byte)} {n : ℕ}

/-! ## Indices -/

theorem mem_programPages_runs {i : Int} :
    i ∈ li.programPages n ↔ ∃ r ∈ li.runs n, InRun r i := by
  rw [mem_programPages, mem_textPages, mem_dataPages, mem_topPages]
  simp only [Exe.runs, List.mem_cons, List.not_mem_nil, or_false, exists_eq_or_imp, exists_eq_left,
    InRun]
  unfold userPagetableSize
  omega

theorem grabPages_ne_none {is : List Int} {m : Mem} {t : PageTable} (h : ∀ i ∈ is, inTable i) :
    grabPages is m t ≠ none := by
  by_cases hlen : is.length ≤ m.supply.length
  · rw [grabPages_enough hlen, if_pos h]
    exact Option.some_ne_none _
  · rw [grabPages_short (not_le.1 hlen), if_pos fun i hi => h i (List.mem_of_mem_take hi)]
    exact Option.some_ne_none _

/-- The call never leaves the table if and only if the pages of the program lie in it. -/
theorem mapProgram_ne_none_iff :
    (∀ (σ : Kernel) (p : Pid), σ.mapProgram li n p ≠ none) ↔
      ∀ i ∈ li.programPages n, inTable i := by
  constructor
  · intro h
    by_contra hout
    have hmap := Kernel.withFrames_map li n 0 0
    rw [if_neg hout, Option.map_eq_none_iff] at hmap
    exact h _ _ hmap
  · intro h σ p hnone
    obtain ⟨x, hx⟩ := Kernel.mapProgram_loop σ li n p
    rw [hx, Option.map_eq_none_iff] at hnone
    exact grabPages_ne_none h hnone

/-- The pages are in the table and apart if and only if the ranges fit. -/
theorem rangesFit_iff : ((∀ i ∈ li.programPages n, inTable i) ∧
    li.textPages.Disjoint li.dataPages ∧ li.textPages.Disjoint (topPages n) ∧
      li.dataPages.Disjoint (topPages n)) ↔ li.RangesFit n := by
  have hbase : 0 ≤ li.textPg1 ∧ 0 ≤ li.dataPg1 := ⟨Int.natCast_nonneg _, Int.natCast_nonneg _⟩
  have htext : ∀ i, i ∈ li.textPages ↔ InRun (li.textPg1, li.tNpg.toNat) i :=
    fun i => mem_textPages
  have hdata : ∀ i, i ∈ li.dataPages ↔ InRun (li.dataPg1, li.dataNpg.toNat) i :=
    fun i => mem_dataPages
  have hstack : ∀ i, i ∈ topPages n ↔ InRun (userPagetableSize - n, n) i := by
    intro i
    rw [mem_topPages, InRun]
    omega
  have htable : (∀ i ∈ li.programPages n, inTable i) ↔
      (li.tNpg.toNat = 0 ∨ li.textPg1 + li.tNpg.toNat ≤ userPagetableSize) ∧
        (li.dataNpg.toNat = 0 ∨ li.dataPg1 + li.dataNpg.toNat ≤ userPagetableSize) ∧
        n ≤ userPagetableSize := by
    have htop : (∀ i, InRun (userPagetableSize - n, n) i → inTable i) ↔ n ≤ userPagetableSize := by
      unfold InRun inTable userPagetableSize
      constructor
      · intro h
        have hfirst := h (128 - n)
        omega
      · intro h i hi
        omega
    have hall : (∀ i ∈ li.programPages n, inTable i) ↔
        ∀ r ∈ li.runs n, ∀ i, InRun r i → inTable i := by
      constructor
      · intro h r hr i hi
        exact h i (mem_programPages_runs.2 ⟨r, hr, hi⟩)
      · intro h i hi
        obtain ⟨r, hr, hi⟩ := mem_programPages_runs.1 hi
        exact h r hr i hi
    rw [hall]
    simp only [Exe.runs, List.forall_mem_cons, List.not_mem_nil, false_imp_iff, implies_true,
      and_true]
    exact and_congr (inRun_below_iff hbase.1) (and_congr (inRun_below_iff hbase.2) htop)
  have happart : ∀ {l l' : List Int} {r r' : Int × ℕ}, (∀ i, i ∈ l ↔ InRun r i) →
      (∀ i, i ∈ l' ↔ InRun r' i) → (l.Disjoint l' ↔
        r.2 = 0 ∨ r'.2 = 0 ∨ r.1 + r.2 ≤ r'.1 ∨ r'.1 + r'.2 ≤ r.1) := by
    intro l l' r r' hl hl'
    rw [← inRun_apart_iff]
    constructor
    · intro h i hi hi'
      exact h ((hl i).2 hi) ((hl' i).2 hi')
    · intro h i hi hi'
      exact h i ((hl i).1 hi) ((hl' i).1 hi')
  rw [htable, happart htext hdata, happart htext hstack, happart hdata hstack, Exe.RangesFit]
  dsimp only
  omega

/-! ## Bytes -/

/-- A byte of region 1 is in the pages of the program when its page is. -/
theorem mapped_userAddr {j : ℕ} (h : j < 2 ^ 32) : li.Mapped n (userAddr j) ↔
    j < 2 ^ 20 ∧ ((j / 8192 : ℕ) : Int) ∈ li.programPages n := by
  have haddr : (userAddr j).toNat = (0x100000 + j) % 2 ^ 32 := by
    have hbase : vmem1Base.toNat = 0x100000 := rfl
    rw [userAddr, BitVec.toNat_add, BitVec.toNat_ofNat, hbase]
    omega
  have hregion : (vmem1Base ≤ userAddr j ∧ userAddr j < vmem1Limit) ↔ j < 2 ^ 20 := by
    change (0x100000 ≤ (userAddr j).toNat ∧ (userAddr j).toNat < 0x200000) ↔ _
    rw [haddr]
    omega
  rw [Exe.Mapped, hregion]
  refine and_congr_right fun hj => ?_
  have hsub : userAddr j - vmem1Base = BitVec.ofNat 32 j := by
    rw [userAddr, BitVec.add_comm, BitVec.add_sub_cancel]
  have hnat : (BitVec.ofNat 32 j).toNat = j := Nat.mod_eq_of_lt h
  rw [hsub, pageNumber_of_lt (by omega), hnat]

/-- Bytes that follow each other are in the pages of the program if and only if their pages
are. -/
theorem mapped_iff_covers (h : li.RangesFit n) (a : Word) (size : ℕ) :
    (∀ k < size, li.Mapped n (a + BitVec.ofNat 32 k)) ↔ li.Covers n a size := by
  obtain ⟨hin, hdata, htop, htop'⟩ := rangesFit_iff.2 h
  have hruns : (li.runs n).Pairwise fun r r' => ∀ i, InRun r i → ¬InRun r' i := by
    simp only [Exe.runs, List.pairwise_cons, List.mem_cons, List.not_mem_nil, or_false, forall_eq,
      forall_eq_or_imp, List.Pairwise.nil, and_true, false_imp_iff, implies_true, inRun_apart_iff]
    unfold Exe.RangesFit at h
    omega
  generalize ho : (a - vmem1Base).toNat = o
  have hlt : o < 2 ^ 32 := ho ▸ (a - vmem1Base).isLt
  have haddr : ∀ k, a + BitVec.ofNat 32 k = userAddr (o + k) := by
    intro k
    have hstart : a = userAddr o := by
      rw [userAddr, ← ho, BitVec.ofNat_toNat, BitVec.setWidth_eq, BitVec.add_comm,
        BitVec.sub_add_cancel]
    rw [hstart, userAddr_add]
  rcases Nat.eq_zero_or_pos size with rfl | hpos
  · simp [Exe.Covers]
  have hcovers : li.Covers n a size ↔ ∀ i : Int, ((o / 8192 : ℕ) : Int) ≤ i →
      i < ((o + size - 1) / 8192 : ℕ) + 1 → i ∈ li.programPages n := by
    simp only [mem_programPages_runs]
    rw [covered_iff hruns, Exe.Covers, ho, or_iff_right (Nat.ne_of_gt hpos)]
    push_cast
    omega
  rw [hcovers]
  simp only [haddr]
  constructor
  · intro hmapped i hle hlast
    -- a byte behind the end of region 1 would be the first one there
    have hregion : o + size ≤ 2 ^ 20 := by
      by_contra hout
      have hstart := ((mapped_userAddr (by omega)).1 (hmapped 0 hpos)).1
      have hend := (mapped_userAddr (by omega)).1 (hmapped (2 ^ 20 - o) (by omega))
      omega
    obtain ⟨j, rfl⟩ := Int.eq_ofNat_of_zero_le (by omega : 0 ≤ i)
    have hbyte := (mapped_userAddr (by omega)).1 (hmapped (max (8192 * j) o - o) (by omega))
    have hpage : (o + (max (8192 * j) o - o)) / 8192 = j := by omega
    rw [hpage] at hbyte
    exact hbyte.2
  · intro hpages k hk
    have hlast := (hin _ (hpages ((o + size - 1) / 8192 : ℕ) (by omega) (by omega))).2
    unfold userPagetableSize at hlast
    refine (mapped_userAddr (by omega)).2 ⟨by omega, hpages _ (by omega) (by omega)⟩

theorem loadSafe_iff : li.LoadSafe n ↔ li.RangesFit n ∧ li.Covers n li.tVaddr li.textSize ∧
    li.Covers n li.idVaddr li.dataSize ∧ li.Covers n li.idEnd (li.udEnd - li.idEnd).toNat := by
  constructor
  · intro h
    have hfit := rangesFit_iff.1 ⟨mapProgram_ne_none_iff.1 h.index, h.apart⟩
    refine ⟨hfit, ?_, ?_, ?_⟩
    · exact (mapped_iff_covers hfit _ _).1 h.text
    · exact (mapped_iff_covers hfit _ _).1 h.data
    · exact (mapped_iff_covers hfit _ _).1 h.bss
  · rintro ⟨hfit, htext, hdata, hbss⟩
    obtain ⟨hin, hapart⟩ := rangesFit_iff.2 hfit
    constructor
    · exact mapProgram_ne_none_iff.2 hin
    · exact hapart
    · exact (mapped_iff_covers hfit _ _).2 htext
    · exact (mapped_iff_covers hfit _ _).2 hdata
    · exact (mapped_iff_covers hfit _ _).2 hbss

/-! ## When the checks are enough -/

/-- The pages of stack that the arguments get, when their true number wraps. -/
def stackPages (args : List (List Byte)) : ℕ := ((trueStack args / 8192).bmod (2 ^ 19)).toNat

/-- The checks of `load_program` are enough if and only if they fail, or the ranges of pages fit
into the table and the pages that are read and cleared belong to them. -/
theorem loader_checks_iff (li : Exe) (args : List (List Byte)) : li.LoaderChecks args ↔
    (li.entry < vmem1Base ∨ 128 ≤ ((trueStack args / 8192).bmod (2 ^ 19) + li.dataPg1 +
        (li.idNpg.toNat + li.udNpg.toNat : ℕ)).bmod (2 ^ 32)) ∨
      li.RangesFit (stackPages args) ∧ li.Covers (stackPages args) li.tVaddr li.textSize ∧
        li.Covers (stackPages args) li.idVaddr li.dataSize ∧
        li.Covers (stackPages args) li.idEnd (li.udEnd - li.idEnd).toNat := by
  have hrefused : (∀ (σ : Kernel) (p : Pid),
      σ.loadProgram (some li) (some args) p = some (error, σ)) ↔ ¬li.Accepted args := by
    constructor
    · intro hall hacc
      exact Kernel.loadProgram_withFrames hacc 0 _ (hall _ 0)
    · intro h σ p
      exact Kernel.loadProgram_refused h σ p
  have hpages : (stackNpg args).toNat = stackPages args := by rw [stackNpg_eq, stackPages]
  rw [Exe.LoaderChecks, hrefused, not_accepted_iff, hpages, loadSafe_iff]

/-- A program with one page of data whose text has 129 pages: `load_program` accepts it and
writes behind the end of the page table. -/
theorem text_not_checked : ∃ li : Exe, li.Accepted [] ∧ (128 : Int) ∈ li.programPages 1 ∧
    ¬li.LoaderChecks [] := by
  refine ⟨{ smallExe with tNpg := 129 }, by decide, by decide, ?_⟩
  rw [loader_checks_iff]
  decide

end Yalnix
