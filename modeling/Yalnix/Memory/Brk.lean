import Yalnix.Memory.Frames
import Yalnix.Runs

/-!
# Brk is not atomic

`sys_Brk` takes frames and writes page table entries one at a time and undoes
nothing when a frame is missing. It is atomic where it has nothing to undo.
-/

namespace Yalnix

namespace Kernel

/-- The page that a `Brk` moves the break to. -/
def brkEnd (σ : Kernel) : Int := pageNumber (upToPage (σ.reg 0) - vmem1Base)

/-- How many pages a `Brk` of `p` adds. -/
def brkPages (σ : Kernel) (p : Pid) : ℕ := (σ.brkEnd - (σ.space p).nextHeapPn).toNat

/-- A page that a `Brk` of `p` adds. -/
def BrkAdds (σ : Kernel) (p : Pid) (i : Int) : Prop :=
  (σ.space p).nextHeapPn ≤ i ∧ i < σ.brkEnd

/-- The result of a `Brk` of `p` that is atomic: one that fails leaves the page table,
the break and the free frames alone, and one that succeeds has mapped all pages that it
adds, and no other, to the frames that it took, each to one of its own. -/
structure BrkAtomic (σ : Kernel) (p : Pid) (o : Outcome) (σ' : Kernel) : Prop where
  failed : o = .ret error → (σ'.space p).uPageTable = (σ.space p).uPageTable ∧
    (σ'.space p).nextHeapPn = (σ.space p).nextHeapPn ∧ σ'.mem.freeFrames = σ.mem.freeFrames
  mapped : o = .ret 0 → ∃ frames, σ.mem.freeFrames = frames ++ σ'.mem.freeFrames ∧
    frames.length = σ.brkPages p ∧ frames.Nodup ∧
    (∀ i, σ.BrkAdds p i → ∃ f ∈ frames,
      (σ'.space p).uPageTable i = ⟨true, protRead ||| protWrite, f⟩) ∧
    (∀ i j, σ.BrkAdds p i → σ.BrkAdds p j →
      ((σ'.space p).uPageTable i).pfn = ((σ'.space p).uPageTable j).pfn → i = j) ∧
    ∀ i, ¬σ.BrkAdds p i → (σ'.space p).uPageTable i = (σ.space p).uPageTable i

/-- When a `Brk` of `p` has nothing to undo: it adds no page, or there is no frame at all,
or the first free frames are enough, none of them 0 and none twice, for pages that are all
in the table. -/
def BrkFits (σ : Kernel) (p : Pid) : Prop :=
  σ.brkPages p = 0 ∨ σ.mem.freeFrames = [] ∨
    σ.brkPages p ≤ σ.mem.supply.length ∧ (σ.mem.freeFrames.take (σ.brkPages p)).Nodup ∧
      0 ≤ (σ.space p).nextHeapPn ∧ σ.brkEnd ≤ userPagetableSize

variable {σ σ' : Kernel} {p : Pid} {o : Outcome}

/-! ## The ways a Brk can end -/

theorem mem_brkPages {i : Int} :
    i ∈ pages (σ.space p).nextHeapPn 1 (σ.brkPages p) ↔ σ.BrkAdds p i := by
  rw [mem_pages_up, BrkAdds, brkPages]
  omega

/-- With frames for all pages, the pages must be in the table. -/
theorem sysBrk_enough (h : σ.brkPages p ≤ σ.mem.supply.length) :
    σ.sysBrk p =
      if ∀ i ∈ pages (σ.space p).nextHeapPn 1 (σ.brkPages p), inTable i then
        some (.ret 0, σ.setMap p (true, σ.mem.taken (σ.brkPages p),
          assign (σ.space p).uPageTable (pages (σ.space p).nextHeapPn 1 (σ.brkPages p))
            (σ.mem.supply.map Pte.rw)) { σ.space p with nextHeapPn := σ.brkEnd })
      else none := by
  have hgrab := @grabPages_enough (pages (σ.space p).nextHeapPn 1 (σ.brkPages p)) σ.mem
    (σ.space p).uPageTable (by simpa using h)
  rw [length_pages] at hgrab
  unfold sysBrk
  dsimp only
  change Option.map _ (grabPages (pages (σ.space p).nextHeapPn 1 (σ.brkPages p)) σ.mem
    (σ.space p).uPageTable) = _
  rw [hgrab]
  split
  · rfl
  · rfl

/-- Without frames for all pages, those that could be had are gone. -/
theorem sysBrk_short (h : σ.mem.supply.length < σ.brkPages p) :
    σ.sysBrk p =
      if ∀ i ∈ pages (σ.space p).nextHeapPn 1 σ.mem.supply.length, inTable i then
        some (.ret error, σ.setMap p (false, (σ.mem.taken σ.mem.supply.length).grabAFrame.2,
          assign (σ.space p).uPageTable (pages (σ.space p).nextHeapPn 1 (σ.brkPages p))
            (σ.mem.supply.map Pte.rw)) (σ.space p))
      else none := by
  have hgrab := @grabPages_short (pages (σ.space p).nextHeapPn 1 (σ.brkPages p)) σ.mem
    (σ.space p).uPageTable (by simpa using h)
  rw [take_pages, min_eq_left (le_of_lt h)] at hgrab
  unfold sysBrk
  dsimp only
  change Option.map _ (grabPages (pages (σ.space p).nextHeapPn 1 (σ.brkPages p)) σ.mem
    (σ.space p).uPageTable) = _
  rw [hgrab]
  split
  · rfl
  · rfl

/-- A Brk that succeeds is atomic if no frame is handed out twice. -/
theorem brkAtomic_of_enough (h : σ.brkPages p ≤ σ.mem.supply.length)
    (hnodup : (σ.mem.freeFrames.take (σ.brkPages p)).Nodup) (hrun : σ.sysBrk p = some (o, σ')) :
    BrkAtomic σ p o σ' := by
  rw [sysBrk_enough h] at hrun
  split at hrun
  swap
  · exact absurd hrun (by simp)
  obtain ⟨rfl, rfl⟩ := Prod.mk.inj (Option.some.inj hrun)
  have hlen : (pages (σ.space p).nextHeapPn 1 (σ.brkPages p)).length ≤
      (σ.mem.supply.map Pte.rw).length := by
    simpa using h
  have hentry : ∀ i, σ.BrkAdds p i → ∃ f ∈ σ.mem.freeFrames.take (σ.brkPages p),
      assign (σ.space p).uPageTable (pages (σ.space p).nextHeapPn 1 (σ.brkPages p))
        (σ.mem.supply.map Pte.rw) i = Pte.rw f := by
    intro i hi
    have hmem := assign_mem (f := (σ.space p).uPageTable) hlen (mem_brkPages.2 hi)
    rw [length_pages, ← List.map_take, Mem.take_supply h, List.mem_map] at hmem
    obtain ⟨f, hf, heq⟩ := hmem
    exact ⟨f, hf, heq.symm⟩
  have htable : ∀ i, ((σ.setMap p (true, σ.mem.taken (σ.brkPages p),
      assign (σ.space p).uPageTable (pages (σ.space p).nextHeapPn 1 (σ.brkPages p))
        (σ.mem.supply.map Pte.rw))
        { σ.space p with nextHeapPn := σ.brkEnd }).space p).uPageTable i =
      assign (σ.space p).uPageTable (pages (σ.space p).nextHeapPn 1 (σ.brkPages p))
        (σ.mem.supply.map Pte.rw) i := by
    intro i
    simp [setMap]
  constructor
  · intro ho
    exact absurd ho (by simp [error])
  · intro _
    refine ⟨σ.mem.freeFrames.take (σ.brkPages p), (List.take_append_drop ..).symm, ?_, hnodup,
      ?_, ?_, ?_⟩
    · rw [List.length_take, min_eq_left (h.trans σ.mem.supply_sublist.length_le)]
    · intro i hi
      rw [htable]
      exact hentry i hi
    · intro i j hi hj hpfn
      have hvs : ((σ.mem.supply.map Pte.rw).take
          (pages (σ.space p).nextHeapPn 1 (σ.brkPages p)).length).Nodup := by
        rw [length_pages, ← List.map_take, Mem.take_supply h]
        exact hnodup.map fun f g hfg => congrArg Pte.pfn hfg
      apply assign_inj (f := (σ.space p).uPageTable) (nodup_pages_up _ _) hlen hvs
        (mem_brkPages.2 hi) (mem_brkPages.2 hj)
      obtain ⟨f, -, hf⟩ := hentry i hi
      obtain ⟨g, -, hg⟩ := hentry j hj
      rw [htable, htable, hf, hg] at hpfn
      rw [hf, hg, show f = g from hpfn]
    · intro i hi
      rw [htable]
      exact assign_of_not_mem fun hmem => hi (mem_brkPages.1 hmem)

/-- A Brk that adds nothing is atomic. -/
theorem brkAtomic_of_none (h : σ.brkPages p = 0) :
    ∃ o σ', σ.sysBrk p = some (o, σ') ∧ BrkAtomic σ p o σ' := by
  have hrun := sysBrk_enough (σ := σ) (p := p) (by rw [h]; exact Nat.zero_le _)
  rw [if_pos (by simp [h, pages])] at hrun
  exact ⟨_, _, hrun, brkAtomic_of_enough (by rw [h]; exact Nat.zero_le _) (by simp [h]) hrun⟩

/-- A Brk that finds no frame at all changes nothing. -/
theorem brkAtomic_of_nil (hn : 0 < σ.brkPages p) (h : σ.mem.freeFrames = []) :
    ∃ o σ', σ.sysBrk p = some (o, σ') ∧ BrkAtomic σ p o σ' := by
  have hsupply : σ.mem.supply = [] := by
    simp [Mem.supply, h]
  have hrun := sysBrk_short (σ := σ) (p := p) (by rw [hsupply]; exact hn)
  rw [hsupply, if_pos (by simp [pages])] at hrun
  refine ⟨_, _, hrun, ?_, fun ho => absurd ho (by simp [error])⟩
  intro _
  simp [setMap, Mem.grabAFrame, Mem.taken, h]

/-- A Brk that fails after it has got a frame, or has been refused one, has lost it. -/
theorem not_brkAtomic_of_short (h : σ.mem.supply.length < σ.brkPages p)
    (hne : σ.mem.freeFrames ≠ []) (hrun : σ.sysBrk p = some (o, σ')) :
    ¬BrkAtomic σ p o σ' := by
  rw [sysBrk_short h] at hrun
  split at hrun
  swap
  · exact absurd hrun (by simp)
  obtain ⟨rfl, rfl⟩ := Prod.mk.inj (Option.some.inj hrun)
  intro hatomic
  obtain ⟨-, -, hfree⟩ := hatomic.failed rfl
  have hlen := congrArg List.length hfree
  have hpos := List.length_pos_iff.2 hne
  simp only [setMap, Mem.grabAFrame_freeFrames, Mem.taken_freeFrames, List.length_tail,
    List.length_drop] at hlen
  omega

/-- Brk is atomic exactly when it has nothing to undo. -/
theorem brk_atomic_iff (σ : Kernel) (p : Pid) :
    (∃ o σ', σ.sysBrk p = some (o, σ') ∧ BrkAtomic σ p o σ') ↔ σ.BrkFits p := by
  rcases Nat.eq_zero_or_pos (σ.brkPages p) with hn | hn
  · exact iff_of_true (brkAtomic_of_none hn) (Or.inl hn)
  by_cases hnil : σ.mem.freeFrames = []
  · exact iff_of_true (brkAtomic_of_nil hn hnil) (Or.inr (Or.inl hnil))
  unfold BrkFits
  rw [or_iff_right (Nat.ne_of_gt hn), or_iff_right hnil]
  by_cases hlen : σ.brkPages p ≤ σ.mem.supply.length
  swap
  · refine iff_of_false ?_ fun h => hlen h.1
    rintro ⟨o, σ', hrun, hatomic⟩
    exact not_brkAtomic_of_short (not_le.1 hlen) hnil hrun hatomic
  have htable : (∀ i ∈ pages (σ.space p).nextHeapPn 1 (σ.brkPages p), inTable i) ↔
      0 ≤ (σ.space p).nextHeapPn ∧ σ.brkEnd ≤ userPagetableSize := by
    rw [inTable_pages_up hn, brkPages]
    unfold brkPages at hn
    omega
  constructor
  · rintro ⟨o, σ', hrun, hatomic⟩
    have hrun' := hrun
    rw [sysBrk_enough hlen] at hrun'
    split at hrun'
    swap
    · exact absurd hrun' (by simp)
    obtain ⟨rfl, rfl⟩ := Prod.mk.inj (Option.some.inj hrun')
    obtain ⟨frames, hframes, hlength, hnodup, -⟩ := hatomic.mapped rfl
    refine ⟨hlen, ?_, htable.1 ‹_›⟩
    rw [hframes, List.take_left' hlength]
    exact hnodup
  · rintro ⟨-, hnodup, hin⟩
    have hrun := sysBrk_enough hlen
    rw [if_pos (htable.2 hin)] at hrun
    exact ⟨_, _, hrun, brkAtomic_of_enough hlen hnodup hrun⟩

/-- Init of the small machine asks for 59 pages when 38 frames are free: its first Brk
fails, and the frames are lost. -/
theorem brk_loses_frames : ∃ σ, kernelStart smallBoot = some σ ∧
    ¬∃ o σ', (σ.callState (smallCall .brk 0x178000 0 0)).sysBrk 0 = some (o, σ') ∧
      BrkAtomic (σ.callState (smallCall .brk 0x178000 0 0)) 0 o σ' := by
  have hrun : ((kernelStart smallBoot).bind fun σ =>
      ((σ.callState (smallCall .brk 0x178000 0 0)).sysBrk 0).map fun r =>
        decide (r.1 = .ret error ∧ r.2.mem.freeFrames.length = 0 ∧
          σ.mem.freeFrames.length = 38)) = some true := by
    decide +kernel
  obtain ⟨σ, hσ, hrun⟩ := Option.bind_eq_some_iff.1 hrun
  obtain ⟨⟨o, σ'⟩, hcall, hP⟩ := Option.map_eq_some_iff.1 hrun
  obtain ⟨rfl, hafter, hbefore⟩ := of_decide_eq_true hP
  refine ⟨σ, hσ, ?_⟩
  rintro ⟨o, τ, hτ, hatomic⟩
  obtain ⟨rfl, rfl⟩ := Prod.mk.inj (Option.some.inj (hτ.symm.trans hcall))
  have hfree : τ.mem.freeFrames.length = σ.mem.freeFrames.length :=
    congrArg List.length (hatomic.failed rfl).2.2
  exact absurd (hafter.symm.trans (hfree.trans hbefore)) (by decide)

end Kernel

end Yalnix
