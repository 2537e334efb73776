import Yalnix.Memory.Account
import Yalnix.Memory.Fault
import Yalnix.Memory.Stacks

/-!
# When a frame is lost

No step brings a frame to a second place, and some steps lose one. From a boot that leaves room
for the heap of the kernel, a run keeps every frame as long as each page that a Brk, a growing
stack or an Exec maps is a page that was not mapped, and it loses one when that fails. A break
that is taken back keeps its pages, so that raising it again is such a step.
-/

namespace Yalnix

open Transition

namespace Kernel

variable {σ σ' : Kernel} {l : Label} {p q : Pid} {o : Outcome}

/-! ## Steps -/

/-- No page that step `l` maps for the process `p` is mapped already, and none is mapped
twice: a Brk, a fault that the stack grows for, and an Exec that gets to the mapping. -/
structure MapsFresh (σ : Kernel) (l : Label) (p : Pid) : Prop where
  brk : l.call = some .brk → ∀ i, (σ.callState l).BrkAdds p i →
    ((σ.space p).uPageTable i).valid = false
  grow : l.vector = some 3 → (σ.callState l).StackFault p →
    ∀ i ∈ (σ.callState l).stackPages p, ((σ.space p).uPageTable i).valid = false
  exec : l.call = some .exec →
    (σ.callState l).badPointer p ((σ.callState l).reg 1) = false →
      ∀ li ∈ l.world.file, ∀ av ∈ (σ.callState l).readArgs (2 ^ 18 + 1) ((σ.callState l).reg 1),
        li.Accepted av → (li.programPages (stackNpg av).toNat).Nodup

theorem vector_ne_of_call {c : Call} (hc : l.call = some c) : l.vector ≠ some 3 := by
  rw [Label.vector_of_call hc]
  decide

theorem mapsFresh_brk (hc : l.call = some .brk) : σ.MapsFresh l p ↔
    ∀ i, (σ.callState l).BrkAdds p i → ((σ.space p).uPageTable i).valid = false := by
  constructor
  · exact fun h => h.brk hc
  · intro h
    exact ⟨fun _ => h, fun hv => absurd hv (vector_ne_of_call hc),
      fun he => absurd (hc.symm.trans he) (by simp)⟩

theorem mapsFresh_exec (hc : l.call = some .exec) : σ.MapsFresh l p ↔
    ((σ.callState l).badPointer p ((σ.callState l).reg 1) = false →
      ∀ li ∈ l.world.file, ∀ av ∈ (σ.callState l).readArgs (2 ^ 18 + 1) ((σ.callState l).reg 1),
        li.Accepted av → (li.programPages (stackNpg av).toNat).Nodup) := by
  constructor
  · exact fun h => h.exec hc
  · intro h
    exact ⟨fun he => absurd (hc.symm.trans he) (by simp),
      fun hv => absurd hv (vector_ne_of_call hc), fun _ => h⟩

theorem mapsFresh_grow (hv : l.vector = some 3) (hfit : (σ.callState l).StackFault p) :
    σ.MapsFresh l p ↔
      ∀ i ∈ (σ.callState l).stackPages p, ((σ.space p).uPageTable i).valid = false := by
  constructor
  · exact fun h => h.grow hv hfit
  · intro h
    exact ⟨fun hc => absurd hv (vector_ne_of_call hc), fun _ _ => h,
      fun hc => absurd hv (vector_ne_of_call hc)⟩

/-- A step in which a fault makes the stack grow. -/
theorem step_of_fault (h : σ.step l = some σ') (hv : l.vector = some 3)
    (hp : σ.activeProc = some p) (hfit : (σ.callState l).StackFault p) :
    ∃ u τ, l.event = .trap u ∧ ((σ.begin l).enter u).growUserStack p = some τ ∧
      σ' = τ.returnUser := by
  unfold Label.vector at hv
  unfold step at h
  cases hl : l.event with
  | trap u =>
      rw [hl] at hv h
      rw [callState_trap hl] at hfit
      dsimp only at hv h
      split at h
      swap
      · exact absurd h (by simp)
      rw [Option.some.inj hv] at h
      change (σ.activeProc.bind fun p => ((σ.begin l).enter u).trapMemoryHdl p) = some σ' at h
      rw [hp, Option.bind_some, trapMemoryHdl, if_pos (show _ ∧ _ from hfit)] at h
      obtain ⟨τ, hτ, rfl⟩ := Option.map_eq_some_iff.1 h
      exact ⟨u, τ, rfl, hτ, rfl⟩
  | resume => simp [hl] at hv
  | store a x => simp [hl] at hv

theorem finish_sound (o : Outcome) (τ : Kernel) : (finish (o, τ)).Sound ↔ τ.Sound := by
  cases o <;> exact Iff.rfl

/-- The process that gets a kernel stack in a step that is no Fork is live afterwards. -/
theorem live_of_new_stack (hinv : σ'.Placed) (h : Hands σ σ') (hold : σ.stack q = 0)
    (hnew : σ'.stack q ≠ 0) : q ∈ σ'.live := by
  rcases h q with hactive | hsame
  · exact hinv.live_of_active hactive
  · exact absurd (hsame.trans hold) hnew

/-- A step that maps no page for a process and is no Fork loses no frame. -/
theorem quiet_account (hinv : σ.Placed) (hst : σ.Stacked) (hs : σ.Sound) (h : Steps σ l σ')
    (ha : σ.Allocates l σ') (hinv' : σ'.Placed) (hp : σ.activeProc = some p)
    (hbrk : l.call ≠ some .brk) (hexec : l.call ≠ some .exec) (hfork : l.call ≠ some .fork)
    (hgrow : ¬(l.vector = some 3 ∧ (σ.callState l).StackFault p)) :
    σ'.Sound ∧ ∀ f, σ'.places f = σ.places f := by
  have hhands := step_hands h hfork
  have hbegin : Yalnix.Sound σ.live ((σ.begin l).mem, σ.space) :=
    ⟨⟨hs.heap.enabled, hs.heap.brk, hs.heap.room⟩, hs.kstacks⟩
  have hsame : σ'.mem.refused = (σ.begin l).mem.refused := ha.2
  cases space_step h with
  | refills hrefill hlive =>
      have haccount := hrefill.account hinv.nodup hbegin hsame fun q hq hne =>
        hlive ▸ live_of_new_stack hinv' hhands hq hne
      unfold Kernel.Sound Kernel.places
      rw [hlive]
      exact haccount
  | exit r τ hr hτ hrun hlive _ =>
      obtain rfl : r = p := Option.some.inj (hr.symm.trans hp)
      have haccount := exit_account hinv.nodup (hinv.live_of_active hp) hbegin ha.begin
        (hst.stack r (Or.inr hp)) hτ hrun hsame fun q hq hne =>
          hlive ▸ live_of_new_stack hinv' hhands hq hne
      unfold Kernel.Sound Kernel.places
      rw [hlive]
      exact haccount
  | brk u r o τ hl hc => exact absurd hc hbrk
  | fork u r o τ hl hc => exact absurd hc hfork
  | exec u r o τ hl hc => exact absurd hc hexec
  | grow u r τ hl hv hr hfit =>
      obtain rfl : r = p := Option.some.inj (hr.symm.trans hp)
      refine absurd ⟨hv, ?_⟩ hgrow
      rw [callState_trap hl]
      exact hfit

/-- A step loses a frame if and only if it maps a page that is mapped. -/
theorem step_account (hinv : σ.Placed) (hst : σ.Stacked) (hs : σ.Sound)
    (h : σ.step l = some σ') (ha : σ.Allocates l σ') (hinv' : σ'.Placed)
    (hp : σ.activeProc = some p) :
    σ'.Sound ∧ ((∀ f, σ'.places f = σ.places f) ↔ σ.MapsFresh l p) := by
  have hmem := hinv.live_of_active hp
  have hsteps := step_cases h
  have hsound : ∀ u, ((σ.begin l).enter u).Sound := fun _ =>
    ⟨⟨hs.heap.enabled, hs.heap.brk, hs.heap.room⟩, hs.kstacks⟩
  have hok : ∀ u, ((σ.begin l).enter u).mem.AllOk := fun _ => ha.begin
  have href : ∀ {u : UserContext} {o : Outcome} {τ : Kernel}, σ' = finish (o, τ) →
      τ.mem.refused = ((σ.begin l).enter u).mem.refused := by
    intro u o τ he
    rw [← finish_mem o, ← he, ha.2]
    rfl
  by_cases hbrk : l.call = some .brk
  · obtain ⟨u, r, o, τ, hl, -, hr, hrun, rfl, -⟩ := hsteps.of_call hbrk
    obtain rfl : r = p := Option.some.inj (hr.symm.trans hp)
    rw [finish_sound, mapsFresh_brk hbrk, callState_trap hl]
    simp only [finish_places]
    exact sysBrk_account (σ := (σ.begin l).enter u) hinv.nodup hmem (hsound u) hrun (href rfl)
  by_cases hexec : l.call = some .exec
  · obtain ⟨u, r, o, τ, hl, -, hr, hrun, rfl, -⟩ := hsteps.of_call hexec
    obtain rfl : r = p := Option.some.inj (hr.symm.trans hp)
    rw [finish_sound, mapsFresh_exec hexec, callState_trap hl]
    simp only [finish_places]
    exact sysExec_account (σ := (σ.begin l).enter u) hinv.nodup hmem (hsound u) (hok u) hrun
      (href rfl)
  by_cases hgrow : l.vector = some 3 ∧ (σ.callState l).StackFault p
  · obtain ⟨u, τ, hl, hrun, rfl⟩ := step_of_fault h hgrow.1 hp hgrow.2
    rw [mapsFresh_grow hgrow.1 hgrow.2, callState_trap hl]
    have haccount := growUserStack_account (σ := (σ.begin l).enter u) hinv.nodup hmem (hsound u)
      hrun ha.2
    exact haccount
  -- the other steps map nothing for a process
  have hfresh : σ.MapsFresh l p := ⟨fun hc => absurd hc hbrk,
    fun hv hfit => absurd ⟨hv, hfit⟩ hgrow, fun hc => absurd hc hexec⟩
  by_cases hfork : l.call = some .fork
  · obtain ⟨u, r, o, τ, hl, -, hr, hrun, rfl, -⟩ := hsteps.of_call hfork
    obtain rfl : r = p := Option.some.inj (hr.symm.trans hp)
    rw [finish_sound]
    simp only [finish_places]
    obtain ⟨hs', hkept⟩ := sysFork_account (σ := (σ.begin l).enter u) hinv.nodup hinv.bound hmem
      (hsound u) (hok u) hrun (href rfl)
    exact ⟨hs', iff_of_true hkept hfresh⟩
  obtain ⟨hs', hkept⟩ := quiet_account hinv hst hs hsteps ha hinv' hp hbrk hexec hfork hgrow
  exact ⟨hs', iff_of_true hkept hfresh⟩

end Kernel

/-! ## The boot -/

namespace Mem

variable {m m' : Mem}

/-- Virtual memory stays off, and the break only rises. -/
structure Rises (m m' : Mem) : Prop where
  off : m'.vmemEnabled = false
  le : m.kernelBrk.toNat ≤ m'.kernelBrk.toNat

theorem Rises.trans {m₁ m₂ : Mem} (h : Rises m m₁) (h' : Rises m₁ m₂) : Rises m m₂ :=
  ⟨h'.off, h.le.trans h'.le⟩

theorem malloc_rises (h : m.vmemEnabled = false) : Rises m m.malloc.2 := by
  refine malloc_rule (R := fun m m' => m.vmemEnabled = false → Rises m m') ?_ ?_ ?_ ?_ m h
  · exact fun m h => ⟨h, le_rfl⟩
  · exact fun h₁ h₂ h => (h₁ h).trans (h₂ (h₁ h).off)
  · intro m a _ h
    rw [setKernelBrk_off h]
    split
    · rename_i hgt
      exact ⟨h, Nat.le_of_lt hgt⟩
    · exact ⟨h, le_rfl⟩
  · exact fun m as h => ⟨h, le_rfl⟩

theorem initQueues_rises {n : ℕ} (h : m.vmemEnabled = false) (hq : initQueues n m = some m') :
    Rises m m' := by
  induction n generalizing m with
  | zero =>
      obtain rfl := Option.some.inj hq
      exact ⟨h, le_rfl⟩
  | succ n ih =>
      unfold initQueues at hq
      split at hq
      · have hfirst := malloc_rises h
        exact hfirst.trans (ih hfirst.off hq)
      · exact absurd hq (by simp)

theorem gatherLoop_rises (bound : Mem → Int) (is : List Int) (h : m.vmemEnabled = false) :
    Rises m (gatherLoop bound is m).2 := by
  induction is generalizing m with
  | nil => exact ⟨h, le_rfl⟩
  | cons i is ih =>
      unfold gatherLoop
      dsimp only
      split
      swap
      · exact ⟨h, le_rfl⟩
      have hfirst := malloc_rises h
      rw [listInsert_last]
      by_cases hok : m.malloc.1.ok = true
      · rw [if_pos hok, if_neg (by simp)]
        have hrest := ih (m := { m.malloc.2 with freeFrames := m.freeFrames ++ [i.toNat] })
          hfirst.off
        exact ⟨hrest.off, hfirst.le.trans hrest.le⟩
      · rw [if_neg hok, if_pos (show (error, m.freeFrames, m.malloc.2).1 ≠ 0 by simp [error])]
        exact hfirst

theorem gatherFreeFrames_rises (n : ℕ) (h : m.vmemEnabled = false) :
    Rises m (gatherFreeFrames n m) := by
  have htop := gatherLoop_rises (fun _ => vmem0Pages - 1) (pages (n - 1) (-1) n) h
  unfold gatherFreeFrames
  dsimp only
  split
  · exact htop.trans (gatherLoop_rises _ _ htop.off)
  · exact htop

/-- The boot maps no page between the break and the kernel stack. -/
theorem bootMem_room {b : Boot} (h : bootMem b = some m) : m.HeapRoom := by
  unfold bootMem at h
  dsimp only at h
  obtain ⟨m₁, hqueues, h⟩ := Option.bind_eq_some_iff.1 h
  have hrise₁ := initQueues_rises rfl hqueues
  have hrise₂ : Rises { m₁ with mallocs := b.gatherMallocs }
      (malloc { m₁ with mallocs := b.gatherMallocs }).2 := malloc_rises hrise₁.off
  have hrise₃ := gatherFreeFrames_rises b.totalFrames hrise₂.off
  split at h
  swap
  · exact absurd h (by simp)
  split at h
  swap
  · exact absurd h (by simp)
  rename_i hfits
  obtain rfl := Option.some.inj h
  generalize gatherFreeFrames b.totalFrames
    (malloc { m₁ with mallocs := b.gatherMallocs }).2 = m₂ at hrise₃ hfits ⊢
  obtain ⟨-, hdata, hstack⟩ := hfits
  have hbrk : m₂.kernelBrk.toNat ≤ 0xfc000 := hstack
  have hlimit : b.dataEnd ≤ m₂.kernelBrk :=
    hrise₁.le.trans (hrise₂.le.trans hrise₃.le)
  refine ⟨rfl, hbrk, fun i hi hlt => ?_⟩
  have hpage := pageNumber_of_lt (a := m₂.kernelBrk) (by omega)
  have hi' : pageNumber m₂.kernelBrk ≤ i := hi
  have hvalid := bootPageTable_valid hdata hlimit hbrk (i := i) (by omega)
    (by unfold kernelStackPage at hlt; unfold vmem0Pages; omega)
  exact Bool.eq_false_iff.2 fun hv => by
    rcases hvalid.1 hv with hlow | hhigh
    · omega
    · omega

end Mem

namespace Kernel

variable {σ σ' τ : Kernel} {b : Boot} {σ₀ : Kernel} {tr : List (Move Kernel Label)}

/-- One of the first two processes is made, and no frame is refused. -/
theorem boot_sound {state : ProcState} {uctxt : UserContext} {file : Option Exe}
    {args : Option (List (List Byte))} {rc : Int}
    {kStackPt : PageTable → Mem → Option (Mem × PageTable)} (hs : σ.Sound) (hok : σ.mem.AllOk)
    (hps : (σ.live ++ [σ.nextPid]).Nodup)
    (hk : ∀ t m r, kStackPt t m = some r → (∃ n, r.1 = m.taken n) ∧
      ((r.2 0).pfn ≠ 0 → ∀ i ∈ pages 0 1 2, (r.2 i).valid = true))
    (hboot : σ.bootProc state uctxt kStackPt = some τ)
    (h : τ.loadProgram file args σ.nextPid = some (rc, σ')) (href : σ'.mem.refused = 0) :
    σ'.Sound := by
  obtain ⟨r, hr, hmem, hspace, hlive⟩ := bootProc_space hboot
  obtain ⟨⟨n, htaken⟩, hvalid⟩ := hk _ _ _ hr
  have hle := le_refused_loadProgram h
  have hτmem : τ.mem.refused = σ.mem.malloc.2.malloc.2.refused := by
    rw [hmem, htaken]
    rfl
  have hτok : τ.mem.AllOk := by
    refine hok.malloc.malloc.of_mallocs ?_
    rw [hmem, htaken]
    rfl
  have hmallocs := (Mem.malloc_accounted σ.mem).trans (Mem.malloc_accounted _)
  have hrises := hmallocs.refused
  obtain ⟨hroom, -⟩ := hmallocs.room hs.heap (by omega)
  have hτ : Yalnix.Sound (σ.live ++ [σ.nextPid]) (τ.mem, τ.space) := by
    refine Yalnix.Sound.append hs ?_ (fun q hq => ?_) fun hne i hi => ?_
    · dsimp only
      rw [hmem, htaken]
      exact hroom.taken n
    · dsimp only
      rw [hspace, Function.update_of_ne hq]
    · dsimp only at hne ⊢
      rw [hspace, Function.update_self] at hne ⊢
      exact hvalid hne i hi
  unfold Kernel.Sound
  rw [((loadProgram_touches h).same .pids (by simp)).2, hlive]
  exact (loadProgram_account hps (List.mem_append_right _ (List.mem_singleton_self _)) hτ hτok h
    (by omega)).1

theorem initInit_sound (hs : σ.Sound) (hok : σ.mem.AllOk)
    (hps : (σ.live ++ [σ.nextPid]).Nodup) (h : σ.initInit b = some σ')
    (href : σ'.mem.refused = 0) : σ'.Sound := by
  obtain ⟨τ, hτ, h⟩ := Option.bind_eq_some_iff.1 h
  obtain ⟨⟨rc, τ'⟩, hload, rfl⟩ := Option.map_eq_some_iff.1 h
  refine boot_sound hs hok hps (fun t m r hr => ?_) hτ hload href
  exact ⟨⟨_, initKStack_taken hr⟩, fun _ => (initKStack_kept hr).2⟩

/-- The idle process has no kernel stack yet. -/
theorem initIdle_sound (hs : σ.Sound) (hok : σ.mem.AllOk)
    (hps : (σ.live ++ [σ.nextPid]).Nodup) (h : σ.initIdle b = some σ')
    (href : σ'.mem.refused = 0) : σ'.Sound := by
  obtain ⟨τ, hτ, h⟩ := Option.bind_eq_some_iff.1 h
  obtain ⟨⟨rc, τ'⟩, hload, rfl⟩ := Option.map_eq_some_iff.1 h
  refine boot_sound hs hok hps (fun t m r hr => ?_) hτ hload href
  obtain rfl := Option.some.inj hr
  exact ⟨⟨0, rfl⟩, fun hne => absurd hne (by simp)⟩

theorem le_refused_initIdle (h : σ.initIdle b = some σ') : σ.mem.refused ≤ σ'.mem.refused := by
  obtain ⟨τ, hτ, h⟩ := Option.bind_eq_some_iff.1 h
  obtain ⟨⟨rc, τ'⟩, hload, rfl⟩ := Option.map_eq_some_iff.1 h
  obtain ⟨r, hr, hmem, -⟩ := bootProc_space hτ
  obtain rfl := Option.some.inj hr
  have hle := le_refused_loadProgram hload
  rw [hmem] at hle
  exact (Mem.le_refused_malloc _).trans ((Mem.le_refused_malloc _).trans hle)

/-- After a boot in which no frame is refused the memory is sound. -/
theorem kernelStart_sound (hok : ∀ a ∈ b.procMallocs, a.ok = true)
    (h : kernelStart b = some σ₀) (href : σ₀.mem.refused = 0) : σ₀.Sound := by
  unfold kernelStart at h
  obtain ⟨m, hm, h⟩ := Option.bind_eq_some_iff.1 h
  obtain ⟨σ₁, h₁, h⟩ := Option.bind_eq_some_iff.1 h
  obtain ⟨σ₂, h₂, h⟩ := Option.bind_eq_some_iff.1 h
  obtain ⟨r, hr, rfl⟩ := Option.map_eq_some_iff.1 h
  have hb₁ := initInit_booting (.empty m) h₁
  have hb₂ := initIdle_booting hb₁ h₂
  have hokm : (empty m).mem.AllOk := bootMem_allOk hok hm
  have hready := (readyInsert_touches σ₂ idle).same .frames (by simp)
  have htaken := initKStack_taken hr
  have href' : (σ₂.readyInsert idle).2.mem.refused = 0 := by
    rw [← href]
    change _ = r.1.refused
    rw [htaken]
    rfl
  have hle₁ := le_refused_initIdle h₂
  have hle₂ := Refill.le_refused hready
  dsimp only at hle₂
  have hempty : (empty m).Sound := ⟨Mem.bootMem_room hm, fun q hq => absurd hq List.not_mem_nil⟩
  have hs₁ : σ₁.Sound := initInit_sound hempty hokm (List.nodup_singleton _) h₁ (by omega)
  have hs₂ : σ₂.Sound := by
    refine initIdle_sound hs₁ (initInit_allOk hokm h₁) ?_ h₂ (by omega)
    rw [hb₁.live, hb₁.nextPid]
    decide
  obtain ⟨hs₃, -⟩ := Refill.account (by rw [hb₂.live]; decide) hready hs₂ (by dsimp only; omega)
    fun q hq hne => absurd hq hne
  have hroom : r.1.HeapRoom := by
    rw [htaken]
    exact hs₃.heap.taken _
  refine ⟨⟨hroom.enabled, hroom.brk, hroom.room⟩, ?_⟩
  change ∀ q ∈ (σ₂.readyInsert idle).2.live, _
  rw [((readyInsert_touches σ₂ idle).same .pids (by simp)).2]
  exact hs₃.kstacks

/-! ## Runs -/

theorem sound_of_run (hok : ∀ a ∈ b.procMallocs, a.ok = true) (h₀ : kernelStart b = some σ₀)
    (hfull : σ₀.mem.refused = 0)
    (h : Run step (fun σ l σ' => σ.Allocates l σ' ∧ σ.IdlePauses l) σ₀ tr σ) :
    (σ.Placed ∧ σ.Stacked) ∧ σ.Sound := by
  refine h.invariant (I := fun σ => (σ.Placed ∧ σ.Stacked) ∧ σ.Sound) ?_ ?_
  · exact ⟨stacked_of_run hok h₀ .start, kernelStart_sound hok h₀ hfull⟩
  · rintro σ l σ' ⟨⟨hinv, hst⟩, hs⟩ hstep ⟨ha, hi⟩
    have hinv' := hinv.step (step_cases hstep) ha hi
    obtain ⟨p, hp⟩ := Option.ne_none_iff_exists'.1 hinv.active
    exact ⟨⟨hinv', hst.step hinv (step_cases hstep) ha hi⟩,
      (step_account hinv hst hs hstep ha hinv' hp).1⟩

/-- In every run in which frames and kernel memory are always available, from a boot for which
that holds too, the frames that were somewhere at the start are all somewhere at the end, as
often as they were, if and only if no Brk, growing stack or Exec has mapped a page that was
mapped already, or one page twice. -/
theorem run_keeps_frames_iff (hok : ∀ a ∈ b.procMallocs, a.ok = true)
    (h₀ : kernelStart b = some σ₀) (hfull : σ₀.mem.refused = 0)
    (h : Run step (fun σ l σ' => σ.Allocates l σ' ∧ σ.IdlePauses l) σ₀ tr σ) :
    (∀ f, σ.places f = σ₀.places f) ↔
      ∀ a ∈ tr, ∀ p, a.before.activeProc = some p → a.before.MapsFresh a.label p := by
  have hmove : ∀ a ∈ tr, (∀ f, a.after.places f ≤ a.before.places f) ∧
      ((∀ f, a.after.places f = a.before.places f) ↔
        ∀ p, a.before.activeProc = some p → a.before.MapsFresh a.label p) := by
    intro a hmem
    obtain ⟨tr', hr, hstep, ha, hi⟩ := h.reaches_before hmem
    obtain ⟨⟨hinv, hst⟩, hs⟩ := sound_of_run hok h₀ hfull hr
    have hinv' := hinv.step (step_cases hstep) ha hi
    obtain ⟨p, hp⟩ := Option.ne_none_iff_exists'.1 hinv.active
    refine ⟨fun f => step_places hinv hst (step_cases hstep) ha, ?_⟩
    refine (step_account hinv hst hs hstep ha hinv' hp).2.trans ⟨fun hfresh q hq => ?_,
      fun hall => hall p hp⟩
    obtain rfl : q = p := Option.some.inj (hq.symm.trans hp)
    exact hfresh
  have hrun := (h.keeps_iff (g := places) fun a hmem f => (hmove a hmem).1 f).2
  rw [← funext_iff, hrun]
  refine forall₂_congr fun a hmem => ?_
  rw [funext_iff]
  exact (hmove a hmem).2

/-- Init of the small machine raises its break by a page, takes it back and raises it again:
the first frame of the page is nowhere, so one of the steps has mapped a page that was mapped. -/
theorem run_keeps_frames_iff_regrown : ∃ σ₀ tr σ, kernelStart smallBoot = some σ₀ ∧
    Run step (fun σ l σ' => σ.Allocates l σ' ∧ σ.IdlePauses l) σ₀ tr σ ∧ tr.length = 3 ∧
      (∃ f, σ₀.places f = 1 ∧ σ.places f = 0) ∧
        ((∀ f, σ.places f = σ₀.places f) ↔
          ∀ a ∈ tr, ∀ p, a.before.activeProc = some p → a.before.MapsFresh a.label p) := by
  have hrun : ((kernelStart smallBoot).bind fun σ₀ =>
      (exec step (fun σ l σ' => σ.Allocates l σ' ∧ σ.IdlePauses l) σ₀
        [smallCall .brk 0x104000 0 0, smallCall .brk 0x102000 0 0,
          smallCall .brk 0x104000 0 0]).map fun σ =>
        decide (σ₀.mem.refused = 0 ∧ σ₀.places 117 = 1 ∧ σ.places 117 = 0)) = some true := by
    decide +kernel
  obtain ⟨σ₀, h₀, h⟩ := Option.bind_eq_some_iff.1 hrun
  obtain ⟨σ, hσ, hP⟩ := Option.map_eq_some_iff.1 h
  obtain ⟨hfull, hlost⟩ := of_decide_eq_true hP
  obtain ⟨tr, hr, hls⟩ := exec_run hσ
  refine ⟨σ₀, tr, σ, h₀, hr, ?_, ⟨_, hlost⟩, run_keeps_frames_iff (by decide) h₀ hfull hr⟩
  rw [← List.length_map Move.label, hls]
  rfl

end Kernel

end Yalnix
