import Yalnix.Library.Wrap
import Yalnix.Memory.Access

/-!
# The sizes that `load_program` computes

`load_program` adds up the lengths of the argument strings and works out, in registers of 32
bits, where strings and pointers go, how many pages the stack needs and how many the program
needs in all. Beside each of these values stands here the integer that it should be: the
register holds it up to a multiple of `2 ^ 32`, and only the last of the sizes is tested.
-/

namespace Yalnix

variable {li : Exe} {args : List (List Byte)}

/-! ## The integers -/

/-- Where the argument strings should begin. -/
def trueStrings (args : List (List Byte)) : Int := 0x200000 - argSize args

/-- Where `argc` and `argv` should begin. -/
def trueTable (args : List (List Byte)) : Int :=
  let a := trueStrings args - (args.length + 3 + 0x20) * 4
  a - a % 8

/-- The bytes of the pages that the stack should have. -/
def trueStack (args : List (List Byte)) : Int :=
  0x200000 - (trueTable args - trueTable args % 8192)

/-- The pages of stack and data with those below the data. -/
def Exe.trueTotal (li : Exe) (args : List (List Byte)) : Int :=
  trueStack args / 8192 + li.dataPg1 + (li.idNpg.toNat + li.udNpg.toNat : ℕ)

/-- The values that `load_program` computes from the argument vector are the true ones. -/
structure Exe.SizesTrue (li : Exe) (args : List (List Byte)) : Prop where
  size : (BitVec.ofNat 32 (argSize args)).toInt = argSize args
  argcount : (BitVec.ofNat 32 args.length).toInt = args.length
  strings : (argStrings args).toInt = trueStrings args
  table : (argTable args).toInt = trueTable args
  stack : stackNpg args = trueStack args / 8192
  total : li.totalNpg args = li.trueTotal args

/-- `load_program` computes the true sizes and copies no more bytes to `argbuf` than it has
allocated for it, or it returns `ERROR`. -/
def Exe.ArgsSafe (li : Exe) (args : List (List Byte)) : Prop :=
  (li.SizesTrue args ∧ argSize args ≤ (BitVec.ofNat 32 (argSize args)).toNat) ∨
    ∀ (σ : Kernel) (p : Pid), ∃ σ', σ.loadProgram (some li) (some args) p = some (error, σ')

/-! ## What the registers hold -/

theorem length_le_argSize (args : List (List Byte)) : args.length ≤ argSize args := by
  induction args with
  | nil => exact Nat.zero_le _
  | cons s args ih =>
      have hcons : argSize (s :: args) = s.length + 1 + argSize args := by
        rw [argSize, argSize, List.map_cons, List.sum_cons]
      rw [hcons, List.length_cons]
      omega

theorem argStrings_eq (args : List (List Byte)) :
    argStrings args = BitVec.ofInt 32 (trueStrings args) := by
  rw [argStrings, trueStrings, BitVec.ofInt_sub, BitVec.ofInt_natCast]
  rfl

theorem argTable_eq (args : List (List Byte)) :
    argTable args = BitVec.ofInt 32 (trueTable args) := by
  have hround := BitVec.ofInt_and_not_mask (n := 32) (k := 3)
    (trueStrings args - ((args.length : Int) + 3 + 0x20) * 4) (by decide)
  rw [BitVec.ofInt_sub, BitVec.ofInt_mul, BitVec.ofInt_add, BitVec.ofInt_add,
    BitVec.ofInt_natCast, ← argStrings_eq] at hround
  exact hround

/-- The stack needs the pages above the one that the table begins in. -/
theorem stackNpg_eq (args : List (List Byte)) :
    stackNpg args = (trueStack args / 8192).bmod (2 ^ 19) := by
  have hround := BitVec.ofInt_and_not_mask (n := 32) (k := 13) (trueTable args) (by decide)
  have hbytes : vmem1Limit - downToPage (argTable args) = BitVec.ofInt 32 (trueStack args) := by
    rw [argTable_eq, trueStack, BitVec.ofInt_sub]
    exact congrArg (vmem1Limit - ·) hround
  have hdvd : trueStack args % 8192 = 0 := by
    unfold trueStack
    omega
  rw [stackNpg, hbytes, pageNumber_eq, BitVec.toInt_ofInt]
  rw [Int.bmod_def, Int.bmod_def]
  push_cast
  split <;> split <;> omega

theorem totalNpg_eq (li : Exe) (args : List (List Byte)) : li.totalNpg args =
    (stackNpg args + li.dataPg1 + (li.idNpg.toNat + li.udNpg.toNat : ℕ)).bmod (2 ^ 32) := by
  have hdata : BitVec.ofInt 32 li.dataNpg =
      BitVec.ofInt 32 ((li.idNpg.toNat + li.udNpg.toNat : ℕ) : Int) := by
    rw [Exe.dataNpg, BitVec.ofInt_toInt, BitVec.ofInt_natCast, BitVec.ofNat_add,
      BitVec.ofNat_toNat, BitVec.ofNat_toNat, BitVec.setWidth_eq, BitVec.setWidth_eq]
  rw [Exe.totalNpg, BitVec.ofInt_add, hdata, ← BitVec.ofInt_add, BitVec.toInt_ofInt]

/-- The sizes are true when neither the bytes of the stack nor the sum of the pages overflows an
`int`. -/
theorem sizesTrue_iff :
    li.SizesTrue args ↔ trueStack args < 2 ^ 31 ∧ li.trueTotal args < 2 ^ 31 := by
  have hlen := length_le_argSize args
  have htable : trueTable args ≤ 0x200000 - argSize args - (args.length + 3 + 0x20) * 4 ∧
      0x200000 - argSize args - (args.length + 3 + 0x20) * 4 - 8 < trueTable args := by
    unfold trueTable trueStrings
    dsimp only
    omega
  have hstack : trueStack args % 8192 = 0 ∧ 0x200000 - trueTable args ≤ trueStack args := by
    unfold trueStack
    omega
  have hdata : 0 ≤ li.dataPg1 := Int.natCast_nonneg _
  constructor
  · intro h
    have hpages := h.stack
    have htotal := h.total
    rw [stackNpg_eq, Int.bmod_def] at hpages
    rw [totalNpg_eq, h.stack, ← Exe.trueTotal, Int.bmod_def] at htotal
    push_cast at hpages htotal
    split at hpages <;> split at htotal <;> omega
  · rintro ⟨hbytes, htotal⟩
    have hpages : stackNpg args = trueStack args / 8192 := by
      rw [stackNpg_eq]
      exact Int.bmod_eq_of_le (by omega) (by omega)
    have hpos : 0 ≤ li.trueTotal args := by
      unfold Exe.trueTotal
      omega
    constructor
    · rw [← BitVec.ofInt_natCast, BitVec.toInt_ofInt]
      exact Int.bmod_eq_of_le (by omega) (by omega)
    · rw [← BitVec.ofInt_natCast, BitVec.toInt_ofInt]
      exact Int.bmod_eq_of_le (by omega) (by omega)
    · rw [argStrings_eq, BitVec.toInt_ofInt]
      exact Int.bmod_eq_of_le (by unfold trueStrings; omega) (by unfold trueStrings; omega)
    · rw [argTable_eq, BitVec.toInt_ofInt]
      exact Int.bmod_eq_of_le (by omega) (by omega)
    · exact hpages
    · rw [totalNpg_eq, hpages, ← Exe.trueTotal]
      exact Int.bmod_eq_of_le (by omega) (by omega)

/-! ## The calls that return `ERROR` -/

namespace Kernel

/-- A kernel in which `n` frames are free. -/
def withFrames (n : ℕ) : Kernel := .empty {
  freeFrames := List.replicate n 1
  krnlPageTable := fun _ => {}
  kernelBrk := 0
  vmemEnabled := true
  initialKs := fun _ => {} }

theorem loadProgram_refused (h : ¬li.Accepted args) (σ : Kernel) (p : Pid) :
    σ.loadProgram (some li) (some args) p = some (error, σ) := by
  unfold loadProgram
  dsimp only
  by_cases hentry : li.entry < vmem1Base
  · rw [if_pos hentry]
  · rw [if_neg hentry, Option.bind_some, if_pos]
    by_contra hfits
    exact h ⟨BitVec.not_lt.1 hentry, not_le.1 hfits⟩

/-- Once a program is mapped, the call succeeds or kills the process. -/
theorem fillProgram_ne_error {σ σ' : Kernel} {p : Pid} {rc : Int}
    (h : σ.fillProgram li args p = some (rc, σ')) : rc ≠ error := by
  unfold fillProgram at h
  dsimp only at h
  split at h
  · rw [← (Prod.mk.inj (Option.some.inj h)).1]
    decide
  split at h
  · rw [← (Prod.mk.inj (Option.some.inj h)).1]
    decide
  obtain ⟨τ, -, h⟩ := Option.bind_eq_some_iff.1 h
  obtain ⟨τ', -, h⟩ := Option.map_eq_some_iff.1 h
  rw [← (Prod.mk.inj h).1]
  decide

/-- Nothing is mapped in such a kernel, so nothing is given back. -/
theorem withFrames_freed (n : ℕ) (p : Pid) (sp : Word) :
    (((withFrames n).setSp p sp).malloc.2).freedPages p = ((withFrames n).mem, fun _ => {}) := by
  have hnone : ∀ is m, freePages is m (fun _ => {}) = (m, fun _ => {}) := by
    intro is m
    induction is with
    | nil => rfl
    | cons i is ih => exact ih
  exact hnone _ _

theorem withFrames_supply (n : ℕ) : (withFrames n).mem.supply = List.replicate n 1 := by
  rw [Mem.supply, withFrames, empty, List.takeWhile_eq_self_iff]
  intro f hf
  rw [List.eq_of_mem_replicate hf]
  rfl

/-- A program that is accepted is mapped if its pages lie in the table and there are frames for
it. -/
theorem withFrames_map (li : Exe) (n : ℕ) (p : Pid) (sp : Word) :
    ((((withFrames (li.programPages n).length).setSp p sp).malloc.2).mapProgram li n p).map
      Prod.fst = if ∀ i ∈ li.programPages n, inTable i then some true else none := by
  rw [mapProgram_enough]
  · split
    · rfl
    · rfl
  · rw [withFrames_freed, withFrames_supply, List.length_replicate]

/-- Such a kernel refuses no program that is accepted. -/
theorem loadProgram_withFrames (h : li.Accepted args) (p : Pid) (σ' : Kernel) :
    (withFrames (li.programPages (stackNpg args).toNat).length).loadProgram (some li) (some args) p
      ≠ some (error, σ') := by
  intro hload
  rw [loadProgram_accepted h rfl] at hload
  obtain ⟨r, hr, hload⟩ := Option.bind_eq_some_iff.1 hload
  have hmap := withFrames_map li (stackNpg args).toNat p (argTable args)
  rw [hr, Option.map_some] at hmap
  split at hmap
  · rw [if_pos (Option.some.inj hmap)] at hload
    exact fillProgram_ne_error hload rfl
  · exact absurd hmap (by simp)

end Kernel

theorem not_accepted_iff : ¬li.Accepted args ↔ li.entry < vmem1Base ∨
    128 ≤ ((trueStack args / 8192).bmod (2 ^ 19) + li.dataPg1 +
      (li.idNpg.toNat + li.udNpg.toNat : ℕ)).bmod (2 ^ 32) := by
  rw [← stackNpg_eq, ← totalNpg_eq, Exe.Accepted, not_and_or, BitVec.not_le, not_lt]
  rfl

/-! ## When the sizes cannot wrap -/

/-- `load_program` computes the true sizes or returns `ERROR` if and only if they fit into an
`int`, or the program does not start in region 1, or the number of pages that wrapping leaves
is too large for the table all the same. -/
theorem args_safe_iff (li : Exe) (args : List (List Byte)) : li.ArgsSafe args ↔
    (trueStack args < 2 ^ 31 ∧ li.trueTotal args < 2 ^ 31) ∨ li.entry < vmem1Base ∨
      128 ≤ ((trueStack args / 8192).bmod (2 ^ 19) + li.dataPg1 +
        (li.idNpg.toNat + li.udNpg.toNat : ℕ)).bmod (2 ^ 32) := by
  have hrefused : (∀ (σ : Kernel) (p : Pid), ∃ σ',
      σ.loadProgram (some li) (some args) p = some (error, σ')) ↔ ¬li.Accepted args := by
    constructor
    · intro hall hacc
      obtain ⟨σ', h⟩ := hall (.withFrames (li.programPages (stackNpg args).toNat).length) 0
      exact Kernel.loadProgram_withFrames hacc 0 σ' h
    · intro h σ p
      exact ⟨σ, Kernel.loadProgram_refused h σ p⟩
  have hbuffer : li.SizesTrue args → argSize args ≤ (BitVec.ofNat 32 (argSize args)).toNat := by
    intro h
    have hsize := h.size
    rw [BitVec.toInt_eq_toNat_cond] at hsize
    split at hsize
    · omega
    · have hlt := (BitVec.ofNat 32 (argSize args)).isLt
      omega
  rw [Exe.ArgsSafe, hrefused, not_accepted_iff, ← sizesTrue_iff, and_iff_left_of_imp hbuffer]

/-! ## A vector of overlapping strings -/

namespace Kernel

/-- Region 1 begins with a string of 65535 bytes, and from its byte 0x40000 on it has 65536
pointers to that string. -/
def overlapBytes (k : ℕ) : Byte :=
  if k < 65535 then 1 else if 0x40000 ≤ k ∧ k < 0x80000 ∧ k % 4 = 2 then 0x10 else 0

/-- A kernel whose user memory is `overlapBytes`. -/
def overlapping : Kernel :=
  { withFrames 0 with
    ptbr1 := some 0
    space := fun _ => { uPageTable := fun i => ⟨true, protRead ||| protWrite, i.toNat⟩ }
    phys := fun f o => overlapBytes (f * 8192 + o) }

theorem overlapping_allows {k n : ℕ} (h : k + n ≤ 2 ^ 20) :
    (overlapping.space 0).uPageTable.Allows protRead k n := by
  intro j hle hlt
  have hprot : (protRead ||| protWrite) &&& protRead = protRead := by decide
  exact ⟨by omega, rfl, hprot⟩

theorem overlapping_bytes {k : ℕ} (h : k < 2 ^ 20) :
    (overlapping.space 0).uPageTable.bytes overlapping.phys k = overlapBytes k := by
  rw [PageTable.bytes, if_pos ⟨h, rfl⟩]
  exact congrArg overlapBytes (Nat.div_add_mod' k 8192)

/-- Each of the pointers leads to the start of region 1. -/
theorem overlapping_pointer {k : ℕ} (hk : 0x40000 ≤ k ∧ k < 0x80000) (h4 : k % 4 = 0) :
    overlapping.loadInt (userAddr k) = some (userAddr 0) := by
  rw [loadInt_userAddr rfl (overlapping_allows (by omega))]
  simp only [slice_succ, slice_zero]
  rw [overlapping_bytes (by omega), overlapping_bytes (by omega), overlapping_bytes (by omega),
    overlapping_bytes (by omega)]
  have hbyte : ∀ j, 0x40000 ≤ j → j < 0x80000 →
      overlapBytes j = if j % 4 = 2 then 0x10 else 0 := by
    intro j hle hlt
    rw [overlapBytes, if_neg (by omega)]
    simp only [hle, hlt, true_and]
  rw [hbyte k (by omega) (by omega), hbyte (k + 1) (by omega) (by omega),
    hbyte (k + 1 + 1) (by omega) (by omega), hbyte (k + 1 + 1 + 1) (by omega) (by omega),
    if_neg (by omega), if_neg (by omega), if_pos (by omega), if_neg (by omega)]
  rfl

theorem overlapping_null : overlapping.loadInt (userAddr 0x80000) = some 0 := by
  rw [loadInt_userAddr rfl (overlapping_allows (by decide))]
  simp only [slice_succ, slice_zero]
  rw [overlapping_bytes (by decide), overlapping_bytes (by decide), overlapping_bytes (by decide),
    overlapping_bytes (by decide)]
  rfl

theorem overlapping_string :
    overlapping.readString (2 ^ 20 + 1) (userAddr 0) = some (List.replicate 65535 1) := by
  apply readString_userAddr rfl
  · intro h
    exact absurd (List.eq_of_mem_replicate h) (by decide)
  · rw [List.length_replicate]
    decide
  · exact overlapping_allows (by rw [List.length_replicate]; decide)
  · rw [List.length_replicate, slice_add]
    refine congrArg₂ (· ++ ·) ?_ ?_
    · refine List.eq_replicate_iff.2 ⟨length_slice _ _ _, fun b hb => ?_⟩
      obtain ⟨i, hi, rfl⟩ := List.mem_map.1 hb
      have hlt := List.mem_range.1 hi
      rw [overlapping_bytes (by omega), overlapBytes, if_pos (by omega)]
    · rw [slice_succ, slice_zero, overlapping_bytes (by decide)]
      rfl

/-- The last `j` pointers of the vector. -/
theorem overlapping_args {j n : ℕ} (hj : j ≤ 65536) (hn : j < n) :
    overlapping.readArgs n (userAddr (0x80000 - 4 * j)) =
      some (List.replicate j (List.replicate 65535 1)) := by
  obtain ⟨n, rfl⟩ := Nat.exists_eq_add_one_of_ne_zero (Nat.ne_of_gt (Nat.zero_lt_of_lt hn))
  induction j generalizing n with
  | zero => rw [readArgs, overlapping_null, Option.bind_some, if_pos rfl, List.replicate_zero]
  | succ j ih =>
      have hnext : userAddr (0x80000 - 4 * (j + 1)) + 4 = userAddr (0x80000 - 4 * j) := by
        have hsub : 0x80000 - 4 * (j + 1) + 4 = 0x80000 - 4 * j := by omega
        rw [← hsub]
        exact userAddr_add _ 4
      obtain ⟨n, rfl⟩ := Nat.exists_eq_add_one_of_ne_zero (Nat.ne_of_gt (by omega : 0 < n))
      rw [readArgs, overlapping_pointer (by omega) (by omega), Option.bind_some,
        if_neg (by decide), overlapping_string, Option.bind_some, hnext,
        ih (by omega) n (by omega), Option.map_some, ← List.replicate_succ]

end Kernel

/-- A process has 65536 pointers to one string of 65535 bytes: the sum of the lengths wraps to
0, and `load_program` accepts the vector. -/
theorem args_wrap : ∃ (σ : Kernel) (a : Word) (args : List (List Byte)),
    σ.readArgs (2 ^ 18 + 1) a = some args ∧ argSize args = 2 ^ 32 ∧
      (BitVec.ofNat 32 (argSize args)).toNat = 0 ∧ ¬smallExe.ArgsSafe args := by
  have hsize : argSize (List.replicate 65536 (List.replicate 65535 1)) = 2 ^ 32 := by
    rw [argSize, List.map_replicate, List.sum_replicate, List.length_replicate]
    rfl
  have hstack : trueStack (List.replicate 65536 (List.replicate 65535 1)) = 2 ^ 32 + 0x42000 := by
    unfold trueStack trueTable trueStrings
    rw [hsize, List.length_replicate]
    rfl
  refine ⟨.overlapping, userAddr (0x80000 - 4 * 65536), _,
    Kernel.overlapping_args (by decide) (by decide), hsize, ?_, ?_⟩
  · rw [hsize]
    rfl
  · rw [args_safe_iff, hstack]
    decide

end Yalnix
