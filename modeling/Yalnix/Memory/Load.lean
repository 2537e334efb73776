import Yalnix.Memory.Image

/-!
# What a load leaves

A call of `load_program` that returns 0 has given the process exactly the pages of the program,
whatever it had mapped before, and the strings it was called with are on the new stack. The
witnesses load a program with text, data and bss over an old one.
-/

namespace Yalnix

variable {li : Exe} {args : List (List Byte)}

namespace Kernel

variable {σ σ' : Kernel} {p : Pid}

/-- A load that returns 0, with segments that lie apart, sizes that do not wrap and mallocs that
neither fail nor grow the heap, leaves exactly the pages of the program, each with its rights
and a frame of its own, and every other frame in the list of free frames. -/
theorem load_program_loaded (hli : li.Segmented) (hargs : li.SizesTrue args)
    (hok : σ.mem.AllOk) (hstill : σ.mem.Still)
    (h : σ.loadProgram (some li) (some args) p = some (0, σ')) :
    (σ'.space p).Loaded li (stackNpg args).toNat ∧
      (σ'.mem.freeFrames ++ (σ'.space p).userFrames).Perm
        (σ.mem.freeFrames ++ (σ.space p).userFrames) ∧
      ((σ.mem.freeFrames ++ (σ.space p).userFrames).Nodup →
        (σ'.mem.freeFrames ++ (σ'.space p).userFrames).Nodup) := by
  obtain ⟨hacc, τ, phys, hmap, hbuild⟩ := loadProgram_done h
  have hn := hli.fits hacc hargs
  have hstores := buildArgs_stores hbuild
  have hmem : σ'.mem = τ.mem := hstores.mem
  have hspace : σ'.space = (τ.protect li p).space := hstores.space
  have hstart : (σ.setSp p (argTable args)).malloc.2.mem = σ.mem.malloc.2 := rfl
  have hperm := load_frames hli hn (by rw [hstart]; exact hok.malloc)
    (by rw [hstart]; exact hstill.malloc) hmap
  rw [hstart, hstill.malloc_eq, ← hspace, ← hmem] at hperm
  refine ⟨?_, hperm, hperm.nodup_iff.2⟩
  rw [hspace]
  exact mapped_loaded hli hn hmap

/-- A program with a page of text, a page of data and a page that is cleared. -/
def fullExe : Exe where
  tVaddr := vmem1Base
  tNpg := 1
  idVaddr := vmem1Base + 0x2000
  idNpg := 1
  udNpg := 1
  idEnd := vmem1Base + 0x3ff0
  udEnd := vmem1Base + 0x6000
  entry := vmem1Base + 16
  text := List.replicate 8192 1
  data := List.replicate 8192 2

theorem fullExe_wellFormed : fullExe.WellFormed := by
  constructor
  · exact ⟨by decide, by decide⟩
  · decide
  · decide
  · exact ⟨by decide, by decide⟩
  · exact ⟨by decide, by decide⟩
  · change 8192 ≤ (List.replicate 8192 1).length ∧ 8192 ≤ (List.replicate 8192 2).length
    rw [List.length_replicate, List.length_replicate, and_self]

/-- Three strings, one of which is empty. -/
def fullArgs : List (List Byte) := [[97, 98], [], [99]]

/-- A kernel whose process 0 has one page mapped, with four free frames. -/
def loading : Kernel :=
  let σ := withFrames 0
  { σ with
    mem := { σ.mem with freeFrames := [1, 2, 3, 4] }
    ptbr1 := some 0
    space := fun _ => { uPageTable := fun i => if i = 5 then ⟨true, protRead, 9⟩ else {} } }

/-- The four pages of the program get the frames 9, 1, 2 and 3. -/
theorem loading_loads :
    ∃ σ', loading.loadProgram (some fullExe) (some fullArgs) 0 = some (0, σ') := by
  have hrun : (((loading.setSp 0 (argTable fullArgs)).malloc.2).mapProgram fullExe
      (stackNpg fullArgs).toNat 0).map Prod.fst = some true := by
    decide +kernel
  obtain ⟨⟨b, τ⟩, hmap, rfl⟩ := Option.map_eq_some_iff.1 hrun
  obtain ⟨σ', hload, -⟩ := loadProgram_mapped fullExe_wellFormed (sizesTrue_iff.2 (by decide))
    (by decide) rfl (by decide +kernel) rfl (by decide) hmap
  exact ⟨σ', hload⟩

/-- The program is loaded there with its arguments. -/
theorem load_program_loaded_small : ∃ σ',
    loading.loadProgram (some fullExe) (some fullArgs) 0 = some (0, σ') ∧
      (σ'.space 0).Loaded fullExe (stackNpg fullArgs).toNat ∧
      (σ'.mem.freeFrames ++ (σ'.space 0).userFrames).Perm
        (loading.mem.freeFrames ++ (loading.space 0).userFrames) ∧
      ((loading.mem.freeFrames ++ (loading.space 0).userFrames).Nodup →
        (σ'.mem.freeFrames ++ (σ'.space 0).userFrames).Nodup) := by
  obtain ⟨σ', h⟩ := loading_loads
  exact ⟨σ', h, load_program_loaded fullExe_wellFormed.segmented (sizesTrue_iff.2 (by decide))
    (by simp [loading, withFrames, empty, Mem.AllOk])
    (by simp [loading, withFrames, empty, Mem.Still]) h⟩

/-- A program that is loaded with the arguments `args`, none of which contains a zero, starts
with these arguments on its stack. -/
theorem load_program_args (hli : li.Segmented) (hargs : li.SizesTrue args)
    (hs : ∀ s ∈ args, 0 ∉ s) (hq : σ.ptbr1 = some p)
    (hframes : (σ.mem.freeFrames ++ (σ.space p).userFrames).Nodup)
    (h : σ.loadProgram (some li) (some args) p = some (0, σ')) :
    σ'.ArgBlock p (σ'.pcb p).uctxt.sp args (stackNpg args).toNat := by
  obtain ⟨hacc, τ, phys, hmap, hbuild⟩ := loadProgram_done h
  have hn := hli.fits hacc hargs
  have hstart : (σ.setSp p (argTable args)).malloc.2.mem = σ.mem.malloc.2 := rfl
  have hτ : τ.pcb = (σ.setSp p (argTable args)).pcb ∧ τ.ptbr1 = σ.ptbr1 := by
    rcases mapProgram_cases hmap with ⟨-, -, -, rfl⟩ | ⟨hb, -⟩
    · exact ⟨rfl, rfl⟩
    · exact absurd hb (by simp)
  have hloaded := mapped_loaded hli hn hmap
  have hsep := load_separate hli hn (hframes.sublist (List.Sublist.append_right
    (σ.mem.malloc_suffix.sublist) _)) hmap
  obtain ⟨k, c, htable, hstrings, h8, hgap, hend, hk⟩ := block_offsets hargs (by
    have hbase : 0 ≤ li.dataPg1 := Int.natCast_nonneg _
    omega)
  have hopen := loaded_open hloaded hsep hk
  obtain ⟨phys', hbuild', hargc, hblock⟩ := buildArgs_argsAt
    (σ := ({ τ.protect li p with phys := phys }).setPc p li.entry) (q := p)
    (by rw [← hq, ← hτ.2]; rfl)
    hopen hgap hend htable hstrings
  rw [hbuild] at hbuild'
  have hσ' := Option.some.inj hbuild'
  have hspace : (σ'.space p) = (τ.protect li p).space p := by
    rw [hσ']
    rfl
  have hsp : (σ'.pcb p).uctxt.sp = userAddr k := by
    rw [hσ', ← htable]
    simp [setPc, protect, setSpace, setPcb, hτ.1, setSp]
  have hptbr1 : σ'.ptbr1 = some p := by
    rw [hσ', ← hq, ← hτ.2]
    rfl
  have hargs' : ArgsAt ((σ'.space p).uPageTable.bytes σ'.phys) (k + 4) c args := by
    rw [hσ']
    exact hblock
  have hcount : slice ((σ'.space p).uPageTable.bytes σ'.phys) k 4 =
      intBytes (BitVec.ofNat 32 args.length) := by
    rw [hσ']
    exact hargc
  have hopen' : (σ'.space p).uPageTable.Open k := by rwa [hspace]
  rw [hsp]
  refine ⟨?_, ?_, ⟨k, c, rfl, hgap, hend, hargs'⟩, fun a hle hlt => ?_⟩
  · exact startArgs_open hptbr1 hopen' hgap hend.le hs hcount hargs'
  · rw [toNat_userAddr (by omega)]
    omega
  · obtain ⟨hin, hmem⟩ := mem_block hk hle hlt (by omega)
    refine ⟨hmem, ?_⟩
    rw [hspace, hloaded.valid _ hin]
    exact Or.inr (Or.inr hmem)

/-- The three strings are the arguments of the program that is loaded. -/
theorem load_program_args_small : ∃ σ',
    loading.loadProgram (some fullExe) (some fullArgs) 0 = some (0, σ') ∧
      σ'.ArgBlock 0 (σ'.pcb 0).uctxt.sp fullArgs (stackNpg fullArgs).toNat := by
  obtain ⟨σ', h⟩ := loading_loads
  exact ⟨σ', h, load_program_args fullExe_wellFormed.segmented (sizesTrue_iff.2 (by decide))
    (by decide) rfl (by decide +kernel) h⟩

end Kernel

end Yalnix
