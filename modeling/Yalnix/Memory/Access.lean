import Yalnix.Library.Overlay
import Yalnix.Memory.KernelHeap
import Yalnix.Memory.Space
import Yalnix.Tree.Status

/-!
# User memory as a sequence of bytes

The kernel reads and writes region 1 through a page table, byte by byte. Where the pages are
mapped and no two of them share a frame, the region is one sequence of bytes, and what
`copy_in` and `copy_out` do to it is reading and overwriting a part of that sequence.
-/

namespace Yalnix

/-- The address of byte `k` of region 1. -/
def userAddr (k : ℕ) : Word := vmem1Base + BitVec.ofNat 32 k

theorem userAddr_add (k j : ℕ) : userAddr k + BitVec.ofNat 32 j = userAddr (k + j) := by
  rw [userAddr, userAddr, BitVec.add_assoc, ← BitVec.ofNat_add]

theorem toNat_userAddr {k : ℕ} (h : k < 2 ^ 31) : (userAddr k).toNat = 0x100000 + k := by
  have hbase : vmem1Base.toNat = 0x100000 := rfl
  rw [userAddr, BitVec.toNat_add, BitVec.toNat_ofNat, hbase]
  omega

/-- The entry of the page of byte `k`. -/
def PageTable.entryOf (t : PageTable) (k : ℕ) : Pte := t ((k / 8192 : ℕ) : Int)

/-- The bytes that the mapped pages of a table have. -/
def PageTable.bytes (t : PageTable) (phys : ℕ → ℕ → Byte) (k : ℕ) : Byte :=
  if k < 2 ^ 20 ∧ (t.entryOf k).valid then phys (t.entryOf k).pfn (k % 8192) else 0

/-- The `n` bytes from `k` on lie in pages with the rights `prot`. -/
def PageTable.Allows (t : PageTable) (prot k n : ℕ) : Prop :=
  ∀ j, k ≤ j → j < k + n → j < 2 ^ 20 ∧ (t.entryOf j).valid = true ∧
    (t.entryOf j).prot &&& prot = prot

/-- No two pages share a frame. -/
def PageTable.Separate (t : PageTable) : Prop :=
  ∀ i, inTable i → (t i).valid = true → ∀ j, inTable j → (t j).valid = true →
    (t i).pfn = (t j).pfn → i = j

variable {t : PageTable} {phys : ℕ → ℕ → Byte} {prot k n : ℕ} {bs : List Byte}

theorem PageTable.Allows.tail (h : t.Allows prot k (n + 1)) : t.Allows prot (k + 1) n :=
  fun j hle hlt => h j (by omega) (by omega)

theorem PageTable.Allows.mono {k' n' : ℕ} (h : t.Allows prot k n) (hle : k ≤ k')
    (hend : k' + n' ≤ k + n) : t.Allows prot k' n' :=
  fun j hj hj' => h j (by omega) (by omega)

theorem inTable_page (h : k < 2 ^ 20) : inTable ((k / 8192 : ℕ) : Int) := by
  unfold inTable userPagetableSize
  omega

/-- Writing one byte of physical memory writes one byte of the region. -/
theorem bytes_update (ht : t.Separate) (hk : k < 2 ^ 20) (hv : (t.entryOf k).valid = true)
    (b : Byte) :
    t.bytes (Function.update phys (t.entryOf k).pfn
      (Function.update (phys (t.entryOf k).pfn) (k % 8192) b)) =
        Function.update (t.bytes phys) k b := by
  funext j
  by_cases hj : j = k
  · subst hj
    rw [Function.update_self, PageTable.bytes, if_pos ⟨hk, hv⟩, Kernel.update_byte_self]
  rw [Function.update_of_ne hj, PageTable.bytes, PageTable.bytes]
  by_cases hmapped : j < 2 ^ 20 ∧ (t.entryOf j).valid = true
  swap
  · rw [if_neg hmapped, if_neg hmapped]
  rw [if_pos hmapped, if_pos hmapped]
  by_cases hframe : (t.entryOf j).pfn = (t.entryOf k).pfn
  · have hpage := ht _ (inTable_page hmapped.1) hmapped.2 _ (inTable_page hk) hv hframe
    exact Kernel.update_byte_ne (by omega) b
  · rw [Function.update_of_ne hframe]

namespace Kernel

variable {σ σ' : Kernel} {q : Pid}

theorem translate_userAddr (hq : σ.ptbr1 = some q) (hk : k < 2 ^ 20) :
    σ.translate prot (userAddr k) =
      if ((σ.space q).uPageTable.entryOf k).valid ∧
          ((σ.space q).uPageTable.entryOf k).prot &&& prot = prot then
        some (((σ.space q).uPageTable.entryOf k).pfn, k % 8192) else none := by
  have haddr := toNat_userAddr (k := k) (by omega)
  have hregion : vmem1Base ≤ userAddr k ∧ userAddr k < vmem1Limit := by
    constructor
    · change 0x100000 ≤ (userAddr k).toNat
      omega
    · change (userAddr k).toNat < 0x200000
      omega
  have hpage : pageNumber (userAddr k - vmem1Base) = ((k / 8192 : ℕ) : Int) := by
    have hsub : userAddr k - vmem1Base = BitVec.ofNat 32 k := by
      rw [userAddr, BitVec.add_comm, BitVec.add_sub_cancel]
    have hnat : (BitVec.ofNat 32 k).toNat = k := Nat.mod_eq_of_lt (by omega)
    rw [hsub, pageNumber_of_lt (by omega), hnat]
  have hoffset : (userAddr k &&& pageOffset).toNat = k % 8192 := by
    rw [toNat_and_pageOffset, haddr]
    omega
  rw [translate, if_pos hregion, hq, Option.bind_some, hpage, hoffset]
  rfl

theorem loadByte_userAddr (hq : σ.ptbr1 = some q)
    (h : (σ.space q).uPageTable.Allows protRead k (n + 1)) :
    σ.loadByte (userAddr k) = some ((σ.space q).uPageTable.bytes σ.phys k) := by
  obtain ⟨hk, hv, hprot⟩ := h k le_rfl (by omega)
  rw [loadByte, translate_userAddr hq hk, if_pos ⟨hv, hprot⟩, Option.map_some, PageTable.bytes,
    if_pos ⟨hk, hv⟩]

/-- The `n` bytes from `k` on are read. -/
theorem copyIn_userAddr (hq : σ.ptbr1 = some q)
    (h : (σ.space q).uPageTable.Allows protRead k n) :
    σ.copyIn (userAddr k) n = some (slice ((σ.space q).uPageTable.bytes σ.phys) k n) := by
  induction n generalizing k with
  | zero => rfl
  | succ n ih =>
      rw [copyIn, loadByte_userAddr hq h, Option.bind_some,
        show userAddr k + 1 = userAddr (k + 1) from userAddr_add k 1, ih h.tail, Option.map_some,
        slice_succ]

theorem loadInt_userAddr (hq : σ.ptbr1 = some q)
    (h : (σ.space q).uPageTable.Allows protRead k 4) : σ.loadInt (userAddr k) =
      some (bytesInt (slice ((σ.space q).uPageTable.bytes σ.phys) k 4)) := by
  rw [loadInt, copyIn_userAddr hq h, Option.map_some]

theorem writeBytes_userAddr (phys : ℕ → ℕ → Byte) (hq : σ.ptbr1 = some q)
    (ht : (σ.space q).uPageTable.Separate)
    (h : (σ.space q).uPageTable.Allows protWrite k bs.length) :
    ∃ phys', σ.writeBytes (userAddr k) bs phys = some phys' ∧
      (σ.space q).uPageTable.bytes phys' = overlay ((σ.space q).uPageTable.bytes phys) k bs := by
  induction bs generalizing k phys with
  | nil => exact ⟨phys, rfl, (overlay_nil _ _).symm⟩
  | cons b bs ih =>
      obtain ⟨hk, hv, hprot⟩ := h k le_rfl (by simp)
      obtain ⟨phys', hphys', hbytes⟩ := ih (Function.update phys
        ((σ.space q).uPageTable.entryOf k).pfn (Function.update
          (phys ((σ.space q).uPageTable.entryOf k).pfn) (k % 8192) b)) h.tail
      refine ⟨phys', ?_, ?_⟩
      · rw [writeBytes, translate_userAddr hq hk, if_pos ⟨hv, hprot⟩, Option.bind_some,
          show userAddr k + 1 = userAddr (k + 1) from userAddr_add k 1]
        exact hphys'
      · rw [hbytes, bytes_update ht hk hv, overlay_cons]

/-- The bytes are written from `k` on, and nothing else changes. -/
theorem copyOut_userAddr (hq : σ.ptbr1 = some q) (ht : (σ.space q).uPageTable.Separate)
    (h : (σ.space q).uPageTable.Allows protWrite k bs.length) :
    ∃ phys, σ.copyOut (userAddr k) bs = some { σ with phys := phys } ∧
      (σ.space q).uPageTable.bytes phys = overlay ((σ.space q).uPageTable.bytes σ.phys) k bs := by
  obtain ⟨phys, hphys, hbytes⟩ := writeBytes_userAddr σ.phys hq ht h
  refine ⟨phys, ?_, hbytes⟩
  rw [copyOut, hphys]
  rfl

/-- The string that ends with the first zero is read. -/
theorem readString_userAddr {s : List Byte} (hq : σ.ptbr1 = some q) (hs : 0 ∉ s)
    (hn : s.length < n) (h : (σ.space q).uPageTable.Allows protRead k (s.length + 1))
    (hbytes : slice ((σ.space q).uPageTable.bytes σ.phys) k (s.length + 1) = s ++ [0]) :
    σ.readString n (userAddr k) = some s := by
  obtain ⟨n, rfl⟩ := Nat.exists_eq_add_one_of_ne_zero (Nat.ne_of_gt (Nat.zero_lt_of_lt hn))
  induction s generalizing n k with
  | nil =>
      have hzero := (List.cons.inj ((slice_succ _ _ _).symm.trans hbytes)).1
      rw [readString, loadByte_userAddr hq h, Option.bind_some, if_pos hzero]
  | cons b s ih =>
      obtain ⟨hb, hs⟩ := not_or.1 (List.mem_cons.not.1 hs)
      obtain ⟨hfirst, hrest⟩ := List.cons.inj ((slice_succ _ _ _).symm.trans hbytes)
      rw [List.length_cons] at hn h
      obtain ⟨n, rfl⟩ := Nat.exists_eq_add_one_of_ne_zero (Nat.ne_of_gt (by omega : 0 < n))
      rw [readString, loadByte_userAddr hq h, Option.bind_some, hfirst, if_neg (Ne.symm hb),
        show userAddr k + 1 = userAddr (k + 1) from userAddr_add k 1,
        ih hs h.tail hrest n (by omega), Option.map_some]

end Kernel

end Yalnix
