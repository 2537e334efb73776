import Yalnix.Memory.ArgSize
import Yalnix.Memory.Layout

/-!
# The address space of a program that has been loaded

`load_program` frees what the process had mapped and takes frames for text, data and stack,
one loop after the other from the same list. With segments that lie apart and sizes that do
not wrap, what it leaves is known entry by entry, and no frame is lost or used twice.
-/

namespace Yalnix

namespace Exe

def textPages (li : Exe) : List Int := pages li.textPg1 1 li.tNpg.toNat

def dataPages (li : Exe) : List Int := pages li.dataPg1 1 li.dataNpg.toNat

/-- The text pages end before the data pages begin, and those end in the table. -/
structure Segmented (li : Exe) : Prop where
  text : li.textPg1 + li.tNpg.toNat ≤ li.dataPg1
  data : li.dataPg1 + (li.idNpg.toNat + li.udNpg.toNat : ℕ) ≤ userPagetableSize

end Exe

/-- The `n` pages at the end of the table. -/
def topPages (n : ℕ) : List Int := pages (userPagetableSize - 1) (-1) n

/-- The page table and the limits of a process into which `li` has been loaded, with `n` pages
of stack. -/
structure Space.Loaded (x : Space) (li : Exe) (n : ℕ) : Prop where
  valid : ∀ i, inTable i → ((x.uPageTable i).valid = true ↔
    i ∈ li.textPages ∨ i ∈ li.dataPages ∨ i ∈ topPages n)
  text : ∀ i ∈ li.textPages, (x.uPageTable i).prot = protRead ||| protExec
  data : ∀ i ∈ li.dataPages, (x.uPageTable i).prot = protRead ||| protWrite
  stack : ∀ i ∈ topPages n, (x.uPageTable i).prot = protRead ||| protWrite
  disjoint : li.textPages.Disjoint li.dataPages ∧ li.textPages.Disjoint (topPages n) ∧
    li.dataPages.Disjoint (topPages n)
  heap : x.nextHeapPn = li.dataPg1 + (li.idNpg.toNat + li.udNpg.toNat : ℕ)
  below : x.nextStackPn = userPagetableSize - 1 - n
  gap : x.nextHeapPn ≤ x.nextStackPn ∧
    ∀ i, x.nextHeapPn ≤ i → i ≤ x.nextStackPn → (x.uPageTable i).valid = false

variable {li : Exe} {args : List (List Byte)} {n : ℕ} {t : PageTable} {fs : List ℕ}

/-! ## The pages -/

namespace Exe.Segmented

theorem dataNpg (h : li.Segmented) : li.dataNpg.toNat = li.idNpg.toNat + li.udNpg.toNat ∧
    0 ≤ li.dataNpg := by
  have hdata := h.data
  have hbase : 0 ≤ li.dataPg1 := Int.natCast_nonneg _
  unfold userPagetableSize at hdata
  have hsum : (li.idNpg + li.udNpg).toNat = li.idNpg.toNat + li.udNpg.toNat := by
    rw [BitVec.toNat_add]
    omega
  have hint : li.dataNpg = (li.idNpg.toNat + li.udNpg.toNat : ℕ) := by
    rw [Exe.dataNpg, BitVec.toInt_eq_toNat_of_lt (by omega), hsum]
  omega

/-- A program that is accepted with sizes that do not wrap leaves a page free. -/
theorem shapes (h : li.Segmented) (hacc : li.Accepted args) (hargs : li.SizesTrue args) :
    li.Shapes args := by
  have hdata := h.dataNpg.1
  have hfits := hacc.2
  have htrue := sizesTrue_iff.1 hargs
  rw [hargs.total, Exe.trueTotal, ← hargs.stack] at hfits
  refine ⟨fun i hi => ?_, ?_, ?_⟩
  · have htext := h.text
    rw [mem_pages_up] at hi
    omega
  · rw [hargs.stack]
    have hpos : 0 ≤ trueStack args := by
      unfold trueStack trueTable trueStrings
      dsimp only
      omega
    omega
  · omega

end Exe.Segmented

theorem Exe.Segmented.fits (h : li.Segmented) (hacc : li.Accepted args)
    (hargs : li.SizesTrue args) :
    ((stackNpg args).toNat : Int) + li.dataPg1 + li.dataNpg.toNat < maxPtLen := by
  have hshapes := h.shapes hacc hargs
  rw [Int.toNat_of_nonneg hshapes.2.1]
  exact hshapes.2.2

theorem mem_topPages {i : Int} :
    i ∈ topPages n ↔ userPagetableSize - 1 - n < i ∧ i ≤ userPagetableSize - 1 := mem_pages_down

theorem mem_programPages {i : Int} :
    i ∈ li.programPages n ↔ i ∈ li.textPages ∨ i ∈ li.dataPages ∨ i ∈ topPages n := by
  rw [Exe.programPages, List.mem_append, List.mem_append]
  rfl

theorem mem_textPages {i : Int} :
    i ∈ li.textPages ↔ li.textPg1 ≤ i ∧ i < li.textPg1 + li.tNpg.toNat := mem_pages_up

theorem mem_dataPages {i : Int} :
    i ∈ li.dataPages ↔ li.dataPg1 ≤ i ∧ i < li.dataPg1 + li.dataNpg.toNat := mem_pages_up

/-- The three loops visit different pages. -/
theorem pages_disjoint (h : li.Segmented) (hn : n + li.dataPg1 + li.dataNpg.toNat < maxPtLen) :
    li.textPages.Disjoint li.dataPages ∧ li.textPages.Disjoint (topPages n) ∧
      li.dataPages.Disjoint (topPages n) := by
  have htext := h.text
  unfold maxPtLen at hn
  refine ⟨?_, ?_, ?_⟩
  · intro i hi hi'
    rw [mem_textPages] at hi
    rw [mem_dataPages] at hi'
    omega
  · intro i hi hi'
    rw [mem_textPages] at hi
    rw [mem_topPages, userPagetableSize] at hi'
    omega
  · intro i hi hi'
    rw [mem_dataPages] at hi
    rw [mem_topPages, userPagetableSize] at hi'
    omega

theorem nodup_programPages (h : li.Segmented)
    (hn : n + li.dataPg1 + li.dataNpg.toNat < maxPtLen) : (li.programPages n).Nodup := by
  obtain ⟨hdata, htop, htop'⟩ := pages_disjoint h hn
  refine (nodup_pages_up _ _).append ((nodup_pages_up _ _).append (nodup_pages_down _ _) htop') ?_
  exact List.disjoint_append_right.2 ⟨hdata, htop⟩

/-- An entry after the three loops and the final protection of the text, in a table that had no
mapped pages. -/
theorem loaded_entry (hlen : (li.programPages n).length ≤ fs.length) {i : Int}
    (ht : (t i).valid = false) :
    let e := Kernel.protectText li (assign t (li.programPages n) (fs.map Pte.rw)) i
    (e.valid = true ↔ i ∈ li.programPages n) ∧
      (i ∈ li.programPages n → e.prot =
        if i ∈ li.textPages then protRead ||| protExec else protRead ||| protWrite) := by
  dsimp only
  by_cases hi : i ∈ li.programPages n
  · obtain ⟨f, -, hf⟩ := assign_rw (t := t) hlen hi
    unfold Kernel.protectText
    rw [hf]
    simp only [mem_textPages]
    split
    · exact ⟨⟨fun _ => hi, fun _ => rfl⟩, fun _ => rfl⟩
    · exact ⟨⟨fun _ => hi, fun _ => rfl⟩, fun _ => rfl⟩
  · have htext : i ∉ li.textPages := fun h => hi (mem_programPages.2 (Or.inl h))
    rw [mem_textPages] at htext
    unfold Kernel.protectText
    rw [if_neg htext, assign_of_not_mem hi, ht]
    exact ⟨⟨fun h => absurd h (by simp), fun h => absurd h hi⟩, fun h => absurd h hi⟩

/-- A program with its stack, in a table without mapped pages. -/
theorem Space.loaded {x : Space} (h : li.Segmented)
    (hn : n + li.dataPg1 + li.dataNpg.toNat < maxPtLen)
    (ht : ∀ i, inTable i → (t i).valid = false)
    (hlen : (li.programPages n).length ≤ fs.length) :
    Space.Loaded { li.limits n x with
      uPageTable := Kernel.protectText li (assign t (li.programPages n) (fs.map Pte.rw)) }
      li n := by
  have hpages : ∀ i ∈ li.programPages n, inTable i := by
    intro i hi
    have htext := h.text
    have hdata := h.data
    have hsum := h.dataNpg.1
    have hbase : 0 ≤ li.textPg1 ∧ 0 ≤ li.dataPg1 := ⟨Int.natCast_nonneg _, Int.natCast_nonneg _⟩
    unfold maxPtLen at hn
    unfold inTable userPagetableSize
    unfold userPagetableSize at hdata
    rw [mem_programPages, mem_textPages, mem_dataPages, mem_topPages, userPagetableSize] at hi
    omega
  have hentry := fun i hi => loaded_entry hlen (ht i hi)
  obtain ⟨hdata, htop, htop'⟩ := pages_disjoint h hn
  constructor
  · intro i hi
    rw [← mem_programPages]
    exact (hentry i hi).1
  · intro i hi
    have hmem : i ∈ li.programPages n := mem_programPages.2 (Or.inl hi)
    refine ((hentry i (hpages i hmem)).2 hmem).trans ?_
    rw [if_pos hi]
  · intro i hi
    have hmem : i ∈ li.programPages n := mem_programPages.2 (Or.inr (Or.inl hi))
    refine ((hentry i (hpages i hmem)).2 hmem).trans ?_
    rw [if_neg fun htext => hdata htext hi]
  · intro i hi
    have hmem : i ∈ li.programPages n := mem_programPages.2 (Or.inr (Or.inr hi))
    refine ((hentry i (hpages i hmem)).2 hmem).trans ?_
    rw [if_neg fun htext => htop htext hi]
  · exact ⟨hdata, htop, htop'⟩
  · rw [← h.dataNpg.1]
    rfl
  · rfl
  · have htext := h.text
    have hbase : 0 ≤ li.dataPg1 := Int.natCast_nonneg _
    unfold maxPtLen at hn
    simp only [Exe.limits, userPagetableSize]
    refine ⟨by omega, fun i hle hge => ?_⟩
    have hin : inTable i := by
      unfold inTable userPagetableSize
      omega
    rw [Bool.eq_false_iff, ne_eq, (hentry i hin).1, mem_programPages, mem_textPages,
      mem_dataPages, mem_topPages, userPagetableSize]
    omega

/-! ## The call -/

namespace Kernel

variable {σ σ' τ : Kernel} {p : Pid}

/-- A program that has been filled: bytes have been written and the text has got its
protection, and then the arguments have been built. -/
theorem fillProgram_done (h : σ.fillProgram li args p = some (0, σ')) :
    ∃ phys, (({ σ.protect li p with phys := phys }).setPc p li.entry).buildArgs args =
      some σ' := by
  have htext := readSegment_stores σ li.tVaddr li.textSize li.text
  unfold fillProgram at h
  dsimp only at h
  generalize σ.readSegment li.tVaddr li.textSize li.text = text at h htext
  split at h
  · exact absurd (Prod.mk.inj (Option.some.inj h)).1 (by decide)
  have hdata := htext.trans (readSegment_stores text.2 li.idVaddr li.dataSize li.data)
  generalize text.2.readSegment li.idVaddr li.dataSize li.data = data at h hdata
  split at h
  · exact absurd (Prod.mk.inj (Option.some.inj h)).1 (by decide)
  obtain ⟨τ, hτ, h⟩ := Option.bind_eq_some_iff.1 h
  obtain ⟨τ', hτ', h⟩ := Option.map_eq_some_iff.1 h
  obtain ⟨-, rfl⟩ := Prod.mk.inj h
  obtain ⟨phys, hphys, -⟩ := copyOut_stores hτ
  obtain ⟨phys₁, hphys₁, -⟩ := hdata
  refine ⟨phys, ?_⟩
  rw [← hτ', hphys, hphys₁]
  rfl

/-- A call that returns 0 has mapped all pages of the program and filled them. -/
theorem loadProgram_done (h : σ.loadProgram (some li) (some args) p = some (0, σ')) :
    li.Accepted args ∧ ∃ τ phys,
      ((σ.setSp p (argTable args)).malloc.2).mapProgram li (stackNpg args).toNat p =
        some (true, τ) ∧
      (({ τ.protect li p with phys := phys }).setPc p li.entry).buildArgs args = some σ' := by
  by_cases hacc : li.Accepted args
  swap
  · rw [loadProgram_refused hacc] at h
    exact absurd (Prod.mk.inj (Option.some.inj h)).1 (by decide)
  by_cases hok : σ.mem.malloc.1.ok = true
  swap
  · unfold loadProgram at h
    dsimp only at h
    rw [if_neg (BitVec.not_lt.2 hacc.1), Option.bind_some, if_neg (not_le.2 hacc.2),
      if_neg (show ¬(σ.setSp p (argTable args)).malloc.1.ok = true from hok)] at h
    exact absurd (Prod.mk.inj (Option.some.inj h)).1 (by decide)
  rw [loadProgram_accepted hacc hok] at h
  obtain ⟨⟨b, τ⟩, hmap, h⟩ := Option.bind_eq_some_iff.1 h
  cases b with
  | false => exact absurd (Prod.mk.inj (Option.some.inj h)).1 (by decide)
  | true =>
      rw [if_pos rfl] at h
      obtain ⟨phys, hfill⟩ := fillProgram_done h
      exact ⟨hacc, τ, phys, hmap, hfill⟩

/-- The page table of a program that has been mapped, with the protection of its text. -/
theorem protect_mapped (hτ : τ = σ.setMap p (true, (σ.freedPages p).1.taken
      (li.programPages n).length, assign (σ.freedPages p).2 (li.programPages n)
        ((σ.freedPages p).1.supply.map Pte.rw)) (li.limits n (σ.space p))) :
    (τ.protect li p).space p = { li.limits n (σ.space p) with
      uPageTable := protectText li (assign (σ.freedPages p).2 (li.programPages n)
        ((σ.freedPages p).1.supply.map Pte.rw)) } := by
  rw [protect_self, hτ, setMap_self]

theorem freedPages_invalid (σ : Kernel) (p : Pid) {i : Int} (hi : inTable i) :
    ((σ.freedPages p).2 i).valid = false := by
  rw [freedPages, freePages_table, if_pos (inTable_userPages.2 hi)]
  exact Pte.freed_valid _

theorem mapped_loaded (h : li.Segmented) (hn : n + li.dataPg1 + li.dataNpg.toNat < maxPtLen)
    (hmap : σ.mapProgram li n p = some (true, τ)) :
    ((τ.protect li p).space p).Loaded li n := by
  rcases mapProgram_cases hmap with ⟨-, hlen, -, hτ⟩ | ⟨hb, -⟩
  · rw [protect_mapped hτ]
    exact Space.loaded h hn (fun i hi => freedPages_invalid _ p hi) (by simpa using hlen)
  · exact absurd hb (by simp)

/-- No frame is lost or used twice when a program is loaded. -/
theorem load_frames (h : li.Segmented) (hn : n + li.dataPg1 + li.dataNpg.toNat < maxPtLen)
    (hok : σ.mem.AllOk) (hstill : σ.mem.Still)
    (hmap : σ.mapProgram li n p = some (true, τ)) :
    (τ.mem.freeFrames ++ ((τ.protect li p).space p).userFrames).Perm
      (σ.mem.freeFrames ++ (σ.space p).userFrames) := by
  rcases mapProgram_cases hmap with ⟨-, hlen, hin, hτ⟩ | ⟨hb, -⟩
  swap
  · exact absurd hb (by simp)
  have hfreed : (σ.freedPages p).1.freeFrames.Perm ((σ.space p).userFrames ++ σ.mem.freeFrames) :=
    freePages_perm nodup_userPages hok hstill
  have hfree : τ.mem.freeFrames =
      (σ.freedPages p).1.freeFrames.drop (li.programPages n).length := by
    rw [hτ]
    rfl
  have hspace := protect_mapped hτ
  have hvalid : ((τ.protect li p).space p).validPages.Perm (li.programPages n) := by
    refine (List.perm_ext_iff_of_nodup (Space.nodup_validPages _) (nodup_programPages h hn)).2 ?_
    intro i
    rw [Space.mem_validPages, hspace]
    constructor
    · rintro ⟨hi, hv⟩
      exact (loaded_entry hlen (freedPages_invalid σ p hi)).1.1 hv
    · intro hi
      exact ⟨hin i hi, (loaded_entry hlen (freedPages_invalid σ p (hin i hi))).1.2 hi⟩
  -- the pages have got the first frames of the list
  have hframes : (li.programPages n).map (fun i =>
      (((τ.protect li p).space p).uPageTable i).pfn) =
        (σ.freedPages p).1.freeFrames.take (li.programPages n).length := by
    have hpfn : ∀ t i, (protectText li t i).pfn = (t i).pfn := by
      intro t i
      unfold protectText
      split <;> rfl
    have hrw : (li.programPages n).length ≤ ((σ.freedPages p).1.supply.map Pte.rw).length := by
      simpa using hlen
    have hmap := congrArg (List.map Pte.pfn)
      (map_assign (f := (σ.freedPages p).2) (nodup_programPages h hn) hrw)
    rw [← List.map_take, Mem.take_supply hlen, List.map_map, List.map_map] at hmap
    rw [hspace]
    simp only [hpfn]
    exact hmap.trans (List.map_id _)
  calc
    _ = (σ.freedPages p).1.freeFrames.drop (li.programPages n).length ++
        ((τ.protect li p).space p).userFrames := by rw [hfree]
    List.Perm _ ((σ.freedPages p).1.freeFrames.drop (li.programPages n).length ++
        (σ.freedPages p).1.freeFrames.take (li.programPages n).length) := by
      rw [← hframes]
      exact (hvalid.map _).append_left _
    List.Perm _ ((σ.freedPages p).1.freeFrames.take (li.programPages n).length ++
        (σ.freedPages p).1.freeFrames.drop (li.programPages n).length) := List.perm_append_comm
    _ = (σ.freedPages p).1.freeFrames := List.take_append_drop _ _
    List.Perm _ ((σ.space p).userFrames ++ σ.mem.freeFrames) := hfreed
    List.Perm _ (σ.mem.freeFrames ++ (σ.space p).userFrames) := List.perm_append_comm

end Kernel

end Yalnix
