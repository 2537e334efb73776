import Yalnix.Memory.ArgBlock
import Yalnix.Memory.Isolation

/-!
# The image of a program

`load_program` writes text, data, zeros and arguments one after the other through the page
table that it has just made. For an executable as a linker lays it out, which passes the
checks and gets its pages, the call succeeds, and each segment is in its place.
-/

namespace Yalnix

open Transition

/-! ## Segments in region 1 -/

/-- How far behind the beginning of region 1 an address is. -/
def userOffset (a : Word) : ℕ := (a - vmem1Base).toNat

theorem userAddr_userOffset (a : Word) : userAddr (userOffset a) = a := by
  rw [userAddr, userOffset, BitVec.ofNat_toNat, BitVec.setWidth_eq, BitVec.add_comm,
    BitVec.sub_add_cancel]

theorem toNat_shiftPage (a : Word) : (a >>> pageShift).toNat = a.toNat / 8192 := by
  rw [BitVec.toNat_ushiftRight, Nat.shiftRight_eq_div_pow]
  rfl

theorem toNat_bytesOfPages {w : Word} (h : w.toNat ≤ 128) :
    (w <<< pageShift).toNat = 8192 * w.toNat := by
  rw [BitVec.toNat_shiftLeft, Nat.shiftLeft_eq]
  change w.toNat * 8192 % 2 ^ 32 = _
  omega

/-- The `n` bytes from `k` on lie in pages that can be read and written. -/
def PageTable.ReadWrite (t : PageTable) (k n : ℕ) : Prop :=
  ∀ j, k ≤ j → j < k + n → j < 2 ^ 20 ∧ (t.entryOf j).valid = true ∧
    (t.entryOf j).prot = protRead ||| protWrite

namespace Exe

/-- An executable as a linker lays it out: text and data begin with a page of their own, the
initialised data are followed by the uninitialised ones within the pages of the data, and the
file has all bytes of the text and of the data. -/
structure WellFormed (li : Exe) : Prop where
  segmented : li.Segmented
  textStart : userOffset li.tVaddr % 8192 = 0
  dataStart : userOffset li.idVaddr % 8192 = 0
  initialised : userOffset li.idVaddr ≤ userOffset li.idEnd ∧
    userOffset li.idEnd ≤ userOffset li.idVaddr + li.dataSize
  uninitialised : userOffset li.idEnd ≤ userOffset li.udEnd ∧
    userOffset li.udEnd ≤ userOffset li.idVaddr + 8192 * (li.idNpg.toNat + li.udNpg.toNat)
  whole : li.textSize ≤ li.text.length ∧ li.dataSize ≤ li.data.length

/-- The number of bytes that are cleared. -/
def bssSize (li : Exe) : ℕ := (li.udEnd - li.idEnd).toNat

/-- The number of bytes of initialised data. -/
def initSize (li : Exe) : ℕ := userOffset li.idEnd - userOffset li.idVaddr

/-- The memory `m` after text, data and zeros have been written to it. -/
def image (li : Exe) (m : ℕ → Byte) : ℕ → Byte :=
  overlay (overlay (overlay m (userOffset li.tVaddr) (li.text.take li.textSize))
    (userOffset li.idVaddr) (li.data.take li.dataSize))
    (userOffset li.idEnd) (List.replicate li.bssSize 0)

namespace WellFormed

variable {li : Exe}

theorem text_offset (h : li.WellFormed) :
    (userOffset li.tVaddr : Int) = 8192 * li.textPg1 ∧ li.textSize = 8192 * li.tNpg.toNat := by
  have htext := h.segmented.text
  have hdata := h.segmented.data
  have hstart := h.textStart
  have hpage : li.textPg1 = (userOffset li.tVaddr / 8192 : ℕ) :=
    congrArg Nat.cast (toNat_shiftPage _)
  unfold userPagetableSize at hdata
  exact ⟨by omega, toNat_bytesOfPages (by omega)⟩

theorem data_offset (h : li.WellFormed) :
    (userOffset li.idVaddr : Int) = 8192 * li.dataPg1 ∧ li.dataSize = 8192 * li.idNpg.toNat := by
  have hdata := h.segmented.data
  have hstart := h.dataStart
  have hpage : li.dataPg1 = (userOffset li.idVaddr / 8192 : ℕ) :=
    congrArg Nat.cast (toNat_shiftPage _)
  unfold userPagetableSize at hdata
  exact ⟨by omega, toNat_bytesOfPages (by omega)⟩

theorem bss_offset (h : li.WellFormed) :
    userOffset li.idEnd + li.bssSize = userOffset li.udEnd := by
  have hle := h.uninitialised.1
  unfold bssSize userOffset at *
  rw [BitVec.toNat_sub] at *
  rw [BitVec.toNat_sub] at *
  rw [BitVec.toNat_sub] at *
  have hbase : vmem1Base.toNat = 0x100000 := rfl
  omega

/-- Where the segments lie: the text ends before the data begin, the initialised data end where
the cleared bytes begin, and these end within the pages of the data. -/
theorem apart (h : li.WellFormed) :
    userOffset li.tVaddr + li.textSize ≤ userOffset li.idVaddr ∧
      userOffset li.idVaddr + li.initSize = userOffset li.idEnd ∧ li.initSize ≤ li.dataSize ∧
      (userOffset li.idEnd + li.bssSize : Int) ≤ 8192 * (li.dataPg1 + li.dataNpg.toNat) ∧
      (userOffset li.idVaddr + li.dataSize : Int) ≤ 8192 * (li.dataPg1 + li.dataNpg.toNat) := by
  have htext := h.text_offset
  have hdata := h.data_offset
  have hbss := h.bss_offset
  have hlt := h.segmented.text
  have hnpg := h.segmented.dataNpg.1
  have hinit := h.initialised
  have huninit := h.uninitialised
  unfold initSize
  omega

theorem text_page (h : li.WellFormed) {j : ℕ} (hle : userOffset li.tVaddr ≤ j)
    (hlt : j < userOffset li.tVaddr + li.textSize) :
    j < 2 ^ 20 ∧ ((j / 8192 : ℕ) : Int) ∈ li.textPages := by
  obtain ⟨hat, hsize⟩ := h.text_offset
  have htop := h.segmented.text
  have htop' := h.segmented.data
  unfold userPagetableSize at htop'
  rw [mem_textPages]
  omega

theorem data_page (h : li.WellFormed) {j : ℕ} (hle : userOffset li.idVaddr ≤ j)
    (hlt : (j : Int) < 8192 * (li.dataPg1 + li.dataNpg.toNat)) :
    j < 2 ^ 20 ∧ ((j / 8192 : ℕ) : Int) ∈ li.dataPages := by
  have hat := h.data_offset.1
  have htop := h.segmented.data
  have hnpg := h.segmented.dataNpg.1
  unfold userPagetableSize at htop
  rw [mem_dataPages]
  omega

/-- What is read from the image of a program are its segments. -/
theorem image_slices (h : li.WellFormed) (m : ℕ → Byte) :
    slice (li.image m) (userOffset li.tVaddr) li.textSize = li.text.take li.textSize ∧
      slice (li.image m) (userOffset li.idVaddr) li.initSize = li.data.take li.initSize ∧
      slice (li.image m) (userOffset li.idEnd) li.bssSize = List.replicate li.bssSize 0 := by
  obtain ⟨htext, hinit, hsize, -, -⟩ := h.apart
  have hlen : (li.text.take li.textSize).length = li.textSize :=
    List.length_take_of_le h.whole.1
  have hlen' : (li.data.take li.dataSize).length = li.dataSize :=
    List.length_take_of_le h.whole.2
  unfold image
  refine ⟨?_, ?_, ?_⟩
  · rw [slice_overlay_of_apart (.inl (by omega)), slice_overlay_of_apart (.inl htext),
      slice_overlay_take _ _ hlen.ge, List.take_take, min_self]
  · rw [slice_overlay_of_apart (.inl hinit.le), slice_overlay_take _ _ (by omega),
      List.take_take, min_eq_left hsize]
  · rw [slice_overlay_take _ _ (List.length_replicate ..).ge,
      List.take_of_length_le (List.length_replicate ..).le]

end WellFormed

end Exe

variable {li : Exe} {args : List (List Byte)} {n k c size : ℕ} {t t' : PageTable}
  {bs : List Byte}

/-! ## Tables that differ in rights -/

theorem PageTable.ReadWrite.write (h : t.ReadWrite k n) : t.Allows protWrite k n := by
  intro j hle hlt
  obtain ⟨hj, hv, hprot⟩ := h j hle hlt
  exact ⟨hj, hv, by rw [hprot]; rfl⟩

theorem bytes_congr (h : ∀ i, (t' i).valid = (t i).valid ∧ (t' i).pfn = (t i).pfn)
    (phys : ℕ → ℕ → Byte) : t'.bytes phys = t.bytes phys := by
  funext j
  unfold PageTable.bytes PageTable.entryOf
  rw [(h _).1, (h _).2]

theorem PageTable.Separate.congr
    (h : ∀ i, (t' i).valid = (t i).valid ∧ (t' i).pfn = (t i).pfn) (ht : t'.Separate) :
    t.Separate := by
  intro i hi hv j hj hv' hframe
  refine ht i hi ?_ j hj ?_ ?_
  · rw [(h i).1, hv]
  · rw [(h j).1, hv']
  · rw [(h i).2, (h j).2, hframe]

namespace Kernel

variable {σ σ' τ : Kernel} {p : Pid} {a : Word} {rc : Int}

/-! ## Filling the segments -/

/-- A segment that its file has whole is read to pages that can be written. -/
theorem readSegment_whole (hq : σ.ptbr1 = some p) (ht : (σ.space p).uPageTable.Separate)
    (hrw : (σ.space p).uPageTable.ReadWrite (userOffset a) size) (hlen : size ≤ bs.length) :
    ∃ phys, σ.readSegment a size bs = (true, { σ with phys := phys }) ∧
      (σ.space p).uPageTable.bytes phys =
        overlay ((σ.space p).uPageTable.bytes σ.phys) (userOffset a) (bs.take size) := by
  have hallows := hrw.write
  rw [← List.length_take_of_le hlen] at hallows
  obtain ⟨phys, hcopy, hbytes⟩ := copyOut_userAddr hq ht hallows
  rw [userAddr_userOffset] at hcopy
  refine ⟨phys, ?_, hbytes⟩
  rw [readSegment, hcopy]
  simp [hlen]

/-- The block of arguments is written from `k` on only. -/
theorem buildArgs_below (hq : σ.ptbr1 = some p) (ho : (σ.space p).uPageTable.Open k)
    (hgap : k + 4 * (args.length + 3) ≤ c) (hend : c + argSize args = 2 ^ 20)
    (htable : argTable args = userAddr k) (hstrings : argStrings args = userAddr c)
    (h : σ.buildArgs args = some σ') {j : ℕ} (hj : j < k) :
    (σ.space p).uPageTable.bytes σ'.phys j = (σ.space p).uPageTable.bytes σ.phys j := by
  have hlimit : (vmem1Limit - userAddr k).toNat = 2 ^ 20 - k := by
    have haddr := toNat_userAddr (k := k) (by omega)
    rw [BitVec.toNat_sub, haddr]
    change (2 ^ 32 - (0x100000 + k) + 0x200000) % 2 ^ 32 = _
    omega
  unfold buildArgs at h
  dsimp only at h
  rw [htable, hstrings, hlimit] at h
  obtain ⟨phys₁, h₁, hbytes₁⟩ := copyOut_open (List.replicate (2 ^ 20 - k) 0) hq ho
    (by rw [List.length_replicate]; omega)
  rw [h₁, Option.bind_some, storeInt] at h
  obtain ⟨phys₂, h₂, hbytes₂⟩ := copyOut_open (σ := { σ with phys := phys₁ })
    (intBytes (BitVec.ofNat 32 args.length)) hq ho (by rw [intBytes_length]; omega)
  rw [h₂, Option.bind_some, show userAddr k + 4 = userAddr (k + 4) from userAddr_add k 4] at h
  obtain ⟨phys₃, h₃, -, hsame⟩ := copyArgs_argsAt (σ := { σ with phys := phys₂ }) args
    hq (ho.mono (k + 4) (by omega)) (c := c) (by omega) (by omega)
  rw [h₃] at h
  obtain rfl := Option.some.inj h
  dsimp only
  rw [hsame j (by omega), hbytes₂, overlay_of_apart (.inl hj), hbytes₁,
    overlay_of_apart (.inl hj)]

/-- With no frame in two places, none that is free or mapped by `p` is so twice. -/
theorem nodup_userFrames (howned : ∀ f, σ.owned f ≤ 1) (hp : p ∈ σ.live) :
    (σ.mem.freeFrames ++ (σ.space p).userFrames).Nodup := by
  rw [List.nodup_iff_count_le_one]
  intro f
  have hone := howned f
  have hle : (σ.space p).uses f ≤ (σ.live.map fun q => (σ.space q).uses f).sum :=
    List.single_le_sum (fun _ _ => Nat.zero_le _) _ (List.mem_map_of_mem hp)
  have huses := usesOn_userFrames (σ.space p) f
  have hsum : (σ.space p).uses f =
      usesOn userPages (σ.space p).uPageTable f + stackUses (σ.space p).kStackPt f := rfl
  rw [Kernel.owned, Yalnix.owned] at hone
  rw [List.count_append]
  dsimp only at hone
  omega

/-- Process `p` is about to run the first instruction of `li`: the pages of the program are
mapped and no others, and its segments and arguments are read from where they belong. -/
structure Started (σ : Kernel) (p : Pid) (li : Exe) (args : List (List Byte)) : Prop where
  user : σ.userMode = true
  table : σ.ptbr1 = some p
  pc : σ.uContext.pc = li.entry
  sp : σ.uContext.sp = argTable args
  layout : (σ.space p).Loaded li (stackNpg args).toNat
  text : σ.copyIn li.tVaddr li.textSize = some (li.text.take li.textSize)
  data : σ.copyIn li.idVaddr li.initSize = some (li.data.take li.initSize)
  bss : σ.copyIn li.idEnd li.bssSize = some (List.replicate li.bssSize 0)
  args : σ.startArgs σ.uContext.sp = some args

theorem protect_same (σ : Kernel) (li : Exe) (p : Pid) (i : Int) :
    (((σ.protect li p).space p).uPageTable i).valid = ((σ.space p).uPageTable i).valid ∧
      (((σ.protect li p).space p).uPageTable i).pfn = ((σ.space p).uPageTable i).pfn :=
  protect_entry σ li p p i

/-- Where a well-formed program is mapped with its stack, filling it succeeds, and the memory
below its arguments is the image of the program. -/
theorem fillProgram_image (hwf : li.WellFormed) (hq : σ.ptbr1 = some p)
    (hrw : ∀ i ∈ li.programPages n, ((σ.space p).uPageTable i).prot = protRead ||| protWrite)
    (hloaded : ((σ.protect li p).space p).Loaded li n)
    (hsep : ((σ.protect li p).space p).uPageTable.Separate)
    (hgap : k + 4 * (args.length + 3) ≤ c) (hend : c + argSize args = 2 ^ 20)
    (hstack : 2 ^ 20 ≤ k + 8192 * n)
    (htable : argTable args = userAddr k) (hstrings : argStrings args = userAddr c) :
    ∃ phys, σ.fillProgram li args p =
        some (0, { (σ.protect li p).setPc p li.entry with phys := phys }) ∧
      slice (((σ.protect li p).space p).uPageTable.bytes phys) k 4 =
        intBytes (BitVec.ofNat 32 args.length) ∧
      ArgsAt (((σ.protect li p).space p).uPageTable.bytes phys) (k + 4) c args ∧
      ∀ j < k, ((σ.protect li p).space p).uPageTable.bytes phys j =
        li.image ((σ.space p).uPageTable.bytes σ.phys) j := by
  have hsame := protect_same σ li p
  have hsep₀ := hsep.congr hsame
  obtain ⟨-, hinit, -, hbssEnd, hdataEnd⟩ := hwf.apart
  have hvalid : ∀ j : ℕ, j < 2 ^ 20 → ((j / 8192 : ℕ) : Int) ∈ li.programPages n →
      (((σ.protect li p).space p).uPageTable.entryOf j).valid = true ∧
        ((σ.space p).uPageTable.entryOf j).valid = true := by
    intro j hj hmem
    have hv := (hloaded.valid _ (inTable_page hj)).2 (mem_programPages.1 hmem)
    exact ⟨hv, (hsame _).1.symm.trans hv⟩
  have hpages (i : Int) := @mem_programPages li n i
  -- text and data are read before the text loses the right to be written
  have htextRW : (σ.space p).uPageTable.ReadWrite (userOffset li.tVaddr) li.textSize := by
    intro j hle hlt
    obtain ⟨hj, hmem⟩ := hwf.text_page hle hlt
    exact ⟨hj, (hvalid j hj ((hpages _).2 (.inl hmem))).2, hrw _ ((hpages _).2 (.inl hmem))⟩
  have hdataRW : (σ.space p).uPageTable.ReadWrite (userOffset li.idVaddr) li.dataSize := by
    intro j hle hlt
    obtain ⟨hj, hmem⟩ := hwf.data_page hle (by omega)
    have hall := (hpages _).2 (.inr (.inl hmem))
    exact ⟨hj, (hvalid j hj hall).2, hrw _ hall⟩
  have hbssRW : ((σ.protect li p).space p).uPageTable.ReadWrite (userOffset li.idEnd)
      li.bssSize := by
    intro j hle hlt
    obtain ⟨hj, hmem⟩ := hwf.data_page (j := j) (by omega) (by omega)
    exact ⟨hj, (hvalid j hj ((hpages _).2 (.inr (.inl hmem)))).1, hloaded.data _ hmem⟩
  obtain ⟨phys₁, htext, hbytes₁⟩ := readSegment_whole hq hsep₀ htextRW hwf.whole.1
  obtain ⟨phys₂, hdata, hbytes₂⟩ := readSegment_whole (σ := { σ with phys := phys₁ }) hq hsep₀
    hdataRW hwf.whole.2
  have hzeros : (List.replicate li.bssSize (0 : Byte)).length = li.bssSize :=
    List.length_replicate ..
  obtain ⟨phys₃, hbss, hbytes₃⟩ := copyOut_userAddr
    (σ := { σ.protect li p with phys := phys₂ }) (q := p) (k := userOffset li.idEnd)
    hq hsep (by rw [hzeros]; exact hbssRW.write)
  rw [userAddr_userOffset] at hbss
  have hopen := loaded_open hloaded hsep hstack
  obtain ⟨phys₄, hbuild, hargc, hblock⟩ := buildArgs_argsAt
    (σ := { (σ.protect li p).setPc p li.entry with phys := phys₃ }) (q := p) hq hopen hgap hend
    htable hstrings
  refine ⟨phys₄, ?_, hargc, hblock, fun j hj => ?_⟩
  · unfold fillProgram
    dsimp only
    rw [htext, if_neg (by simp), hdata, if_neg (by simp)]
    change ((({ σ.protect li p with phys := phys₂ } : Kernel).copyOut li.idEnd
      (List.replicate li.bssSize 0)).bind _) = _
    rw [hbss, Option.bind_some]
    change ((({ (σ.protect li p).setPc p li.entry with phys := phys₃ } : Kernel).buildArgs
      args).map _) = _
    rw [hbuild]
    rfl
  · have hbelow := buildArgs_below (σ := { (σ.protect li p).setPc p li.entry with phys := phys₃ })
      (p := p) hq hopen hgap hend htable hstrings hbuild hj
    refine hbelow.trans ?_
    change ((σ.protect li p).space p).uPageTable.bytes phys₃ j = _
    rw [hbytes₃, bytes_congr hsame, hbytes₂, hbytes₁, Exe.image]

/-- Text and data lie below the block of arguments. -/
theorem below_block (h : li.Segmented) (hn : n + li.dataPg1 + li.dataNpg.toNat < maxPtLen)
    (hk : 2 ^ 20 ≤ k + 8192 * n) {j : ℕ} (hmem : ((j / 8192 : ℕ) : Int) ∈ li.textPages ∨
      ((j / 8192 : ℕ) : Int) ∈ li.dataPages) : j < k := by
  have htext := h.text
  unfold maxPtLen at hn
  rcases hmem with hmem | hmem
  · rw [mem_textPages] at hmem
    omega
  · rw [mem_dataPages] at hmem
    omega

/-- Where the memory below the arguments is `m`, what lies in the text and the data of a loaded
program is read from `m`. -/
theorem copyIn_loaded {m : ℕ → Byte} (hq : σ.ptbr1 = some p) (hloaded : (σ.space p).Loaded li n)
    (hm : ∀ j, ((j / 8192 : ℕ) : Int) ∈ li.textPages ∨ ((j / 8192 : ℕ) : Int) ∈ li.dataPages →
      (σ.space p).uPageTable.bytes σ.phys j = m j)
    (hrange : ∀ j, userOffset a ≤ j → j < userOffset a + size → j < 2 ^ 20 ∧
      (((j / 8192 : ℕ) : Int) ∈ li.textPages ∨ ((j / 8192 : ℕ) : Int) ∈ li.dataPages)) :
    σ.copyIn a size = some (slice m (userOffset a) size) := by
  have hallows : (σ.space p).uPageTable.Allows protRead (userOffset a) size := by
    intro j hle hlt
    obtain ⟨hj, hmem⟩ := hrange j hle hlt
    rcases hmem with hmem | hmem
    · refine ⟨hj, (hloaded.valid _ (inTable_page hj)).2 (.inl hmem), ?_⟩
      rw [PageTable.entryOf, hloaded.text _ hmem]
      rfl
    · refine ⟨hj, (hloaded.valid _ (inTable_page hj)).2 (.inr (.inl hmem)), ?_⟩
      rw [PageTable.entryOf, hloaded.data _ hmem]
      rfl
  have hcopy := copyIn_userAddr hq hallows
  rw [userAddr_userOffset] at hcopy
  rw [hcopy]
  exact congrArg some (slice_congr fun j hle hlt => hm j (hrange j hle hlt).2)

/-- A well-formed program that passes the checks of `load_program` and is mapped is loaded, and
its process is prepared. -/
theorem loadProgram_mapped (hwf : li.WellFormed) (hargs : li.SizesTrue args)
    (hs : ∀ s ∈ args, 0 ∉ s) (hq : σ.ptbr1 = some p)
    (hframes : (σ.mem.freeFrames ++ (σ.space p).userFrames).Nodup)
    (hok : σ.mem.malloc.1.ok = true) (hacc : li.Accepted args)
    (hmap : ((σ.setSp p (argTable args)).malloc.2).mapProgram li (stackNpg args).toNat p =
      some (true, τ)) :
    ∃ σ', σ.loadProgram (some li) (some args) p = some (0, σ') ∧ σ'.mem = τ.mem ∧
      (σ'.startUser p).Started p li args := by
  have hn := hwf.segmented.fits hacc hargs
  obtain ⟨-, hlen, hin, hτ⟩ := (mapProgram_cases hmap).resolve_right fun h => absurd h.1 (by simp)
  have hloaded := mapped_loaded hwf.segmented hn hmap
  have hsep := load_separate hwf.segmented hn (hframes.sublist (List.Sublist.append_right
    (σ.mem.malloc_suffix.sublist) _)) hmap
  obtain ⟨k, c, htable, hstrings, -, hgap, hend, hk⟩ := block_offsets hargs (by
    have hbase : 0 ≤ li.dataPg1 := Int.natCast_nonneg _
    omega)
  have hrw : ∀ i ∈ li.programPages (stackNpg args).toNat,
      ((τ.space p).uPageTable i).prot = protRead ||| protWrite := by
    intro i hi
    obtain ⟨f, -, hf⟩ := assign_rw hlen hi
    rw [hτ, setMap_self]
    exact congrArg Pte.prot hf
  have hτq : τ.ptbr1 = some p := by
    rw [hτ]
    exact hq
  obtain ⟨phys, hfill, hargc, hblock, himage⟩ :=
    fillProgram_image hwf hτq hrw hloaded hsep hgap hend hk htable hstrings
  refine ⟨{ (τ.protect li p).setPc p li.entry with phys := phys }, ?_, rfl, ?_⟩
  · rw [loadProgram_accepted hacc hok, hmap, Option.bind_some, if_pos rfl, hfill]
  -- what the process has before it when it runs
  let υ := startUser { (τ.protect li p).setPc p li.entry with phys := phys } p
  have hm : ∀ j, ((j / 8192 : ℕ) : Int) ∈ li.textPages ∨ ((j / 8192 : ℕ) : Int) ∈ li.dataPages →
      (υ.space p).uPageTable.bytes υ.phys j =
        li.image ((τ.space p).uPageTable.bytes τ.phys) j :=
    fun j hmem => himage j (below_block hwf.segmented hn hk hmem)
  obtain ⟨-, hinit, hsize, hbssEnd, hdataEnd⟩ := hwf.apart
  obtain ⟨htext, hdata, hbss⟩ := hwf.image_slices ((τ.space p).uPageTable.bytes τ.phys)
  have hat := hwf.data_offset.1
  have hsp : (((τ.protect li p).setPc p li.entry).pcb p).uctxt.sp = argTable args := by
    rw [hτ]
    simp [setPc, protect, setSpace, setPcb, setMap, setSp, malloc]
  constructor
  · rfl
  · rfl
  · simp [startUser, setPc, setPcb]
  · exact hsp
  · exact hloaded
  · rw [copyIn_loaded (σ := υ) rfl hloaded hm fun j hle hlt =>
      (hwf.text_page hle hlt).imp_right .inl, htext]
  · rw [copyIn_loaded (σ := υ) rfl hloaded hm fun j hle hlt =>
      (hwf.data_page (by omega) (by omega)).imp_right .inr, hdata]
  · rw [copyIn_loaded (σ := υ) rfl hloaded hm fun j hle hlt =>
      (hwf.data_page (by omega) (by omega)).imp_right .inr, hbss]
  · change υ.startArgs (((τ.protect li p).setPc p li.entry).pcb p).uctxt.sp = _
    rw [hsp, htable]
    exact startArgs_open (σ := υ) (q := p) rfl (loaded_open hloaded hsep hk) hgap hend.le hs hargc
      hblock

end Kernel

end Yalnix
