import Yalnix.Memory.Layout
import Yalnix.Memory.Owned

/-!
# A process does not reach the memory of another

The kernel writes to user memory through the page table that is in use, and that is the one
of the process that runs. Only Fork and Exec write to other frames, which were free or with
their process. With no frame in two places, a step leaves the page table and the memory of
every process that does not run as they were.
-/

namespace Yalnix

open Transition

namespace Kernel

/-- The state has changed in frames that the page table in use maps, and that page table is
still the same. -/
structure WritesOwn (σ σ' : Kernel) : Prop where
  maps : ∀ f, σ'.Maps f ↔ σ.Maps f
  phys : ∀ f, ¬σ.Maps f → σ'.phys f = σ.phys f

namespace WritesOwn

variable {σ σ₁ σ' : Kernel} {vs : List View}

theorem refl (σ : Kernel) : WritesOwn σ σ := ⟨fun _ => Iff.rfl, fun _ _ => rfl⟩

theorem trans (h : WritesOwn σ σ₁) (h' : WritesOwn σ₁ σ') : WritesOwn σ σ' where
  maps f := (h'.maps f).trans (h.maps f)
  phys f hf := (h'.phys f fun hmaps => hf ((h.maps f).1 hmaps)).trans (h.phys f hf)

theorem of_stores (h : Stores σ σ') : WritesOwn σ σ' where
  maps f := by
    obtain ⟨phys, rfl, -⟩ := h
    exact Iff.rfl
  phys f hf := h.phys hf

theorem of_same (hr : σ'.ptbr1 = σ.ptbr1) (hs : σ'.space = σ.space) (hm : σ'.phys = σ.phys) :
    WritesOwn σ σ' where
  maps f := by
    unfold Maps
    rw [hr, hs]
  phys f _ := congrFun hm f

/-- An operation that touches neither memory nor the page tables. -/
theorem of_touches (h : Touches vs σ σ') (hf : View.frames ∉ vs) (hr : View.registers ∉ vs)
    (hm : View.memory ∉ vs) : WritesOwn σ σ' where
  maps f := by
    have hptbr : σ'.ptbr1 = σ.ptbr1 := (h.same .registers hr).2
    have htable : ∀ q, (σ'.space q).uPageTable = (σ.space q).uPageTable :=
      fun q => ((h.same .frames hf).layout q).table
    unfold Maps
    simp only [hptbr, htable]
  phys f _ := congrFun (h.same .memory hm) f

/-- The result of a call, after what has been written on the way to it. -/
theorem ret {α : Type} {x y : α} (h : WritesOwn σ σ₁) (he : some (x, σ₁) = some (y, σ')) :
    WritesOwn σ σ' := by
  obtain ⟨-, rfl⟩ := Prod.mk.inj (Option.some.inj he)
  exact h

end WritesOwn

variable {σ σ' τ : Kernel} {l : Label} {p q : Pid} {o : Outcome} {k : KernelContext}

/-! ## Calls that write to user memory -/

theorem block_writes {after : Kernel → Option (Outcome × Kernel)}
    (hafter : ∀ τ o τ', after τ = some (o, τ') → WritesOwn τ τ')
    (h : σ.block k after = some (o, σ')) : WritesOwn σ σ' := by
  rcases block_cases h with hτ | ⟨τ, hτ, h⟩
  · exact .of_touches hτ (by simp) (by simp) (by simp)
  · exact (WritesOwn.of_touches hτ (by simp) (by simp) (by simp)).trans (hafter _ _ _ h)

theorem scanDead_writes {statusPtr : Word} {i : ℕ} {otherwise : Option (Outcome × Kernel)}
    (hother : otherwise = some (o, σ') → WritesOwn σ σ')
    (h : σ.scanDead p statusPtr i otherwise = some (o, σ')) : WritesOwn σ σ' := by
  unfold scanDead at h
  split at h
  · exact hother h
  · split at h
    · obtain ⟨τ, hτ, h⟩ := Option.map_eq_some_iff.1 h
      obtain ⟨-, rfl⟩ := Prod.mk.inj h
      exact (WritesOwn.of_stores (storeInt_stores hτ)).trans (.of_same rfl rfl rfl)
    · exact absurd h (by simp)

theorem sysWaitResume_writes {statusPtr : Word} {i : ℕ}
    (h : σ.sysWaitResume p statusPtr i = some (o, σ')) : WritesOwn σ σ' :=
  scanDead_writes (fun h => .ret (.refl σ) h) h

theorem sysWait_writes (h : σ.sysWait p = some (o, σ')) : WritesOwn σ σ' := by
  unfold sysWait at h
  dsimp only at h
  split at h
  · exact .ret (.refl σ) h
  · obtain ⟨_, -, h⟩ := Option.bind_eq_some_iff.1 h
    split at h
    · exact .ret (.refl σ) h
    · refine scanDead_writes (fun h => ?_) h
      have hwait := waitInsert_touches σ p
      exact (WritesOwn.of_touches hwait (by simp) (by simp) (by simp)).trans
        (block_writes (fun _ _ _ h => sysWaitResume_writes h) h)

theorem sysTtyReadResume_writes {ttyId : Int}
    (h : σ.sysTtyReadResume p ttyId = some (o, σ')) : WritesOwn σ σ' := by
  unfold sysTtyReadResume at h
  dsimp only at h
  split at h
  · obtain ⟨τ, hτ, h⟩ := Option.map_eq_some_iff.1 h
    obtain ⟨-, rfl⟩ := Prod.mk.inj h
    have hlen : WritesOwn σ (σ.setPcb p { σ.pcb p with len := σ.stringLen }) :=
      .of_touches (setPcb_touches_buffer (by rfl) (by rfl) (by rfl) (by rfl)) (by simp) (by simp)
        (by simp)
    exact hlen.trans (.of_stores (copyOut_stores hτ))
  · exact absurd h (by simp)

theorem sysTtyRead_writes (h : σ.sysTtyRead p = some (o, σ')) : WritesOwn σ σ' := by
  unfold sysTtyRead at h
  dsimp only at h
  split at h
  · exact .ret (.refl σ) h
  split at h
  · exact .ret (.refl σ) h
  split at h
  · exact .ret (.refl σ) h
  split at h
  · exact .ret (.refl σ) h
  have hset := setPcb_touches_buffers (σ := σ) (p := p) (x := { σ.pcb p with
    ttyId := (σ.reg 0).toInt, buf := σ.reg 1, len := (σ.reg 2).toInt, state := .blockedR }) rfl rfl
  have hio : WritesOwn σ _ := .of_touches (hset.seq (ioInsert_touches _ p)) (by simp) (by simp)
    (by simp)
  split at h
  · exact .ret hio h
  · exact hio.trans (block_writes (fun _ _ _ h => sysTtyReadResume_writes h) h)

theorem takeBytes_writes {a : ℕ} {buf : Word} {len : Int}
    (h : σ.takeBytes a buf len = some (o, σ')) : WritesOwn σ σ' := by
  unfold takeBytes at h
  obtain ⟨τ, hτ, h⟩ := Option.bind_eq_some_iff.1 h
  dsimp only at h
  split at h
  swap
  · exact absurd h (by simp)
  obtain ⟨-, rfl⟩ := Prod.mk.inj (Option.some.inj h)
  have hwake : ∀ pipes, WritesOwn τ (wakePipe { τ.malloc.2 with pipes := pipes } a) := by
    intro pipes
    have hpipes : WritesOwn τ { τ.malloc.2 with pipes := pipes } := .of_same rfl rfl rfl
    exact hpipes.trans (.of_touches (wakePipe_touches _ a) (by simp) (by simp) (by simp))
  exact (WritesOwn.of_stores (copyOut_stores hτ)).trans (hwake _)

theorem pipeReadLoop_writes {a : ℕ} {pipeId : Int} {buf : Word} {len : Int} {exist : Bool}
    (h : σ.pipeReadLoop p a pipeId buf len exist = some (o, σ')) : WritesOwn σ σ' := by
  unfold pipeReadLoop at h
  split at h
  · split at h
    · have hwait := pipeWaitInsert_touches σ a p
      exact (WritesOwn.of_touches hwait (by simp) (by simp) (by simp)).trans
        (block_writes (fun _ _ _ h => absurd h (by simp)) h)
    · exact takeBytes_writes h
  · exact absurd h (by simp)

theorem sysPipeReadResume_writes {a : ℕ} {pipeId : Int} {buf : Word} {len : Int} {exist : Bool}
    (h : σ.sysPipeReadResume p a pipeId buf len exist = some (o, σ')) : WritesOwn σ σ' := by
  unfold sysPipeReadResume at h
  dsimp only at h
  split at h
  · exact pipeReadLoop_writes h
  · exact .ret (.refl σ) h

theorem sysPipeRead_writes (h : σ.sysPipeRead p = some (o, σ')) : WritesOwn σ σ' := by
  unfold sysPipeRead at h
  dsimp only at h
  split at h
  · exact .ret (.refl σ) h
  split at h
  · exact .ret (.refl σ) h
  split at h
  · exact .ret (.refl σ) h
  split at h
  · exact .ret (.refl σ) h
  · exact pipeReadLoop_writes h

/-- The Init calls store the new id, and allocate before and after. -/
theorem init_writes {τ τ' : Kernel} {a w : Word} (hbefore : Touches [] σ τ)
    (hstore : τ.storeInt a w = some τ') : WritesOwn σ τ'.malloc.2 :=
  ((WritesOwn.of_touches hbefore (by simp) (by simp) (by simp)).trans
    (.of_stores (storeInt_stores hstore))).trans
      (.of_touches (malloc_touches τ') (by simp) (by simp) (by simp))

theorem sysPipeInit_writes (h : σ.sysPipeInit p = some (o, σ')) : WritesOwn σ σ' := by
  have hquiet : ∀ {τ : Kernel}, Touches [] σ τ → WritesOwn σ τ := fun ht =>
    .of_touches ht (by simp) (by simp) (by simp)
  unfold sysPipeInit at h
  dsimp only at h
  have hrecord := (malloc_touches σ).trans (malloc_touches _)
  split at h
  · exact .ret (hquiet hrecord) h
  have hbuffer := hrecord.trans (malloc_touches _)
  split at h
  · exact .ret (hquiet hbuffer) h
  have hhead := hbuffer.trans (malloc_touches _)
  split at h
  · exact .ret (hquiet hhead) h
  obtain ⟨τ, hτ, h⟩ := Option.bind_eq_some_iff.1 h
  have hnode := init_writes hhead hτ
  split at h
  · exact .ret hnode h
  have hall := ((pipesAlloc_touches τ.malloc.2 σ.malloc.1.addr
      (x := ⟨τ.newId, 0, fun _ => 0, []⟩) rfl).trans
        ((reclaimInsert_touches _ .pipe).mono (by simp)))
  have hend := hnode.trans (.of_touches hall (by simp) (by simp) (by simp))
  split at h
  · exact .ret hend h
  · exact .ret hend h

theorem sysLockInit_writes (h : σ.sysLockInit p = some (o, σ')) : WritesOwn σ σ' := by
  have hquiet : ∀ {τ : Kernel}, Touches [] σ τ → WritesOwn σ τ := fun ht =>
    .of_touches ht (by simp) (by simp) (by simp)
  unfold sysLockInit at h
  dsimp only at h
  have hrecord := (malloc_touches σ).trans (malloc_touches _)
  split at h
  · exact .ret (hquiet hrecord) h
  have hhead := hrecord.trans (malloc_touches _)
  split at h
  · exact .ret (hquiet hhead) h
  obtain ⟨τ, hτ, h⟩ := Option.bind_eq_some_iff.1 h
  have hnode := init_writes hhead hτ
  split at h
  · exact .ret hnode h
  have halloc : WritesOwn τ.malloc.2 { τ.malloc.2 with
      locks := τ.malloc.2.locks.alloc σ.malloc.1.addr ⟨τ.newId, false, 0, []⟩ } :=
    .of_same rfl rfl rfl
  have hend := (hnode.trans halloc).trans
    (.of_touches (reclaimInsert_touches _ .lock) (by simp) (by simp) (by simp))
  split at h
  · exact .ret hend h
  · exact .ret hend h

theorem sysCvarInit_writes (h : σ.sysCvarInit p = some (o, σ')) : WritesOwn σ σ' := by
  have hquiet : ∀ {τ : Kernel}, Touches [] σ τ → WritesOwn σ τ := fun ht =>
    .of_touches ht (by simp) (by simp) (by simp)
  unfold sysCvarInit at h
  dsimp only at h
  have hcvar := (malloc_touches σ).trans (malloc_touches _)
  split at h
  · exact .ret (hquiet hcvar) h
  have hhead := hcvar.trans (malloc_touches _)
  split at h
  · exact .ret (hquiet hhead) h
  obtain ⟨τ, hτ, h⟩ := Option.bind_eq_some_iff.1 h
  have hnode := init_writes hhead hτ
  split at h
  · exact .ret hnode h
  split at h
  swap
  · exact absurd h (by simp)
  have halloc : WritesOwn τ.malloc.2 { τ.malloc.2 with
      cvars := τ.malloc.2.cvars.alloc σ.malloc.2.malloc.1.addr ⟨τ.newId, []⟩ } :=
    .of_same rfl rfl rfl
  have hend := (hnode.trans halloc).trans
    (.of_touches (reclaimInsert_touches _ .cvar) (by simp) (by simp) (by simp))
  split at h
  · exact .ret hend h
  · exact .ret hend h

/-! ## Steps -/

/-- A call other than Fork and Exec writes to the user memory of its process only. -/
theorem sysCall_phys {c : Call} (hfork : c ≠ .fork) (hexec : c ≠ .exec)
    (h : σ.sysCall p c = some (o, σ')) {f : ℕ} (hf : ¬σ.Maps f) : σ'.phys f = σ.phys f := by
  have hquiet : View.memory ∉ callViews c → σ'.phys f = σ.phys f := fun hvs =>
    congrFun ((sysCall_touches h).same .memory hvs) f
  cases c with
  | fork => exact absurd rfl hfork
  | exec => exact absurd rfl hexec
  | wait => exact (sysWait_writes h).phys f hf
  | ttyRead => exact (sysTtyRead_writes h).phys f hf
  | pipeInit => exact (sysPipeInit_writes (p := p) h).phys f hf
  | pipeRead => exact (sysPipeRead_writes h).phys f hf
  | lockInit => exact (sysLockInit_writes (p := p) h).phys f hf
  | cvarInit => exact (sysCvarInit_writes (p := p) h).phys f hf
  | _ => exact hquiet (by simp [callViews])

theorem resumeCall_phys (h : σ.resumeCall p k = some (o, σ')) {f : ℕ} (hf : ¬σ.Maps f) :
    σ'.phys f = σ.phys f := by
  have hquiet : View.memory ∉ resumeViews k → σ'.phys f = σ.phys f := fun hvs =>
    congrFun ((resumeCall_touches h).same .memory hvs) f
  cases k with
  | wait s i => exact (sysWaitResume_writes h).phys f hf
  | ttyRead t => exact (sysTtyReadResume_writes h).phys f hf
  | pipeRead a i b n e => exact (sysPipeReadResume_writes h).phys f hf
  | _ => exact hquiet (by simp [resumeViews])

/-- In user code the page table of the process that runs is in use. -/
def Mapped (σ : Kernel) : Prop := σ.userMode = true → σ.ptbr1 = σ.activeProc

/-- The process `p` has a page in the frame `f`. -/
def HasPage (σ : Kernel) (p : Pid) (f : ℕ) : Prop :=
  ∃ i, inTable i ∧ ((σ.space p).uPageTable i).valid = true ∧ ((σ.space p).uPageTable i).pfn = f

theorem maps_iff (h : σ.ptbr1 = some p) {f : ℕ} : σ.Maps f ↔ σ.HasPage p f := by
  unfold Maps HasPage
  simp [h]

theorem finish_phys (o : Outcome) (τ : Kernel) : (finish (o, τ)).phys = τ.phys := by
  cases o <;> rfl

/-- A step that is neither Fork nor Exec writes to memory of the process that runs. -/
theorem step_phys (h : Steps σ l σ') (hmap : σ.Mapped) (hp : σ.activeProc = some p)
    (hfork : l.call ≠ some .fork) (hexec : l.call ≠ some .exec) {f : ℕ} (hf : ¬σ.HasPage p f) :
    σ'.phys f = σ.phys f := by
  have huser : ∀ {τ : Kernel}, σ.userMode = true → τ.ptbr1 = σ.ptbr1 → τ.space = σ.space →
      ¬τ.Maps f := by
    intro τ hu hr hs
    rw [maps_iff (hr.trans ((hmap hu).trans hp))]
    unfold HasPage
    rwa [hs]
  have hquiet : ∀ {vs : List View}, Touches vs (σ.begin l) σ' → View.memory ∉ vs →
      σ'.phys f = σ.phys f := fun ht hvs => congrFun (ht.same .memory hvs) f
  have henter : ∀ u, Touches [.registers] (σ.begin l) ((σ.begin l).enter u) := fun u =>
    .registers ..
  cases h with
  | store hl hu h => exact (copyOut_stores h).phys (huser hu rfl rfl)
  | @call u r c o τ hl hu hv hr hc h =>
      have hcall : l.call = some c := by simp [Label.call, hl, hv, hc]
      rw [finish_phys]
      refine sysCall_phys ?_ ?_ h (huser hu rfl rfl)
      · rintro rfl
        exact hfork hcall
      · rintro rfl
        exact hexec hcall
  | @clock u τ hl hu hv h => exact hquiet ((henter u).seq (trapClockHdl_touches h)) (by simp)
  | @abort u r o τ hl hu hv hr h =>
      rw [finish_phys]
      exact congrFun ((sysExit_touches h).same .memory (by simp)) f
  | @grow u r τ hl hu hv hr hfit h =>
      exact hquiet ((henter u).seq ((growUserStack_touches h).seq (returnUser_touches τ)))
        (by simp)
  | @receive u τ hl hu hv h =>
      exact hquiet ((henter u).seq ((trapTtyReceiveHdl_touches h).seq (returnUser_touches τ)))
        (by simp)
  | @transmit u τ hl hu hv h =>
      exact hquiet ((henter u).seq ((trapTtyTransmitHdl_touches h).seq (returnUser_touches τ)))
        (by simp)
  | @disk u hl hu hv => rfl
  | @resume r o τ hl hu hr h =>
      obtain rfl : r = p := Option.some.inj (hr.symm.trans hp)
      rw [finish_phys]
      refine resumeCall_phys h ?_
      rwa [maps_iff (σ := (σ.begin l).restore r) rfl]

theorem finish_ptbr1 (o : Outcome) (τ : Kernel) : (finish (o, τ)).ptbr1 = τ.ptbr1 := by
  cases o <;> rfl

theorem sysExec_ptbr1 (h : σ.sysExec p = some (o, σ')) (hr : σ.ptbr1 = some p) :
    σ'.ptbr1 = some p := by
  unfold sysExec at h
  dsimp only at h
  split at h
  · obtain ⟨-, rfl⟩ := Prod.mk.inj (Option.some.inj h)
    exact hr
  obtain ⟨⟨rc, τ⟩, hload, h⟩ := Option.map_eq_some_iff.1 h
  split at h
  · obtain ⟨-, rfl⟩ := Prod.mk.inj h
    exact ((loadProgram_touches hload).same .registers (by simp)).2.trans hr
  · obtain ⟨-, rfl⟩ := Prod.mk.inj h
    rfl

theorem resumeCall_ptbr1 (h : σ.resumeCall p k = some (o, σ')) (hr : σ.ptbr1 = some p) :
    σ'.ptbr1 = some p := by
  cases k with
  | kernelStart =>
      obtain ⟨-, rfl⟩ := Prod.mk.inj (Option.some.inj h)
      rfl
  | _ => exact ((resumeCall_touches h).same .registers (by simp [resumeViews])).2.trans hr

/-- No step changes the page table in use to that of a process that does not run. -/
theorem step_ptbr1 (h : Steps σ l σ') (hmap : σ.Mapped) (hp : σ.activeProc = some p) :
    σ'.ptbr1 = some p := by
  have hmode : σ.userMode = true → σ.ptbr1 = some p := fun hu => (hmap hu).trans hp
  cases h with
  | store hl hu h => exact ((copyOut_touches h).same .registers (by simp)).2.trans (hmode hu)
  | @call u r c o τ hl hu hv hr hc h =>
      obtain rfl : r = p := Option.some.inj (hr.symm.trans hp)
      rw [finish_ptbr1]
      by_cases hexec : c = .exec
      · subst hexec
        exact sysExec_ptbr1 (σ := (σ.begin l).enter u) h (hmode hu)
      · have hvs : View.registers ∉ callViews c := by
          cases c <;> simp_all [callViews]
        exact ((sysCall_touches h).same .registers hvs).2.trans (hmode hu)
  | @clock u τ hl hu hv h =>
      exact ((trapClockHdl_touches h).same .registers (by simp)).2.trans (hmode hu)
  | @abort u r o τ hl hu hv hr h =>
      rw [finish_ptbr1]
      exact ((sysExit_touches h).same .registers (by simp)).2.trans (hmode hu)
  | @grow u r τ hl hu hv hr hfit h =>
      exact ((growUserStack_touches h).same .registers (by simp)).2.trans (hmode hu)
  | @receive u τ hl hu hv h =>
      exact ((trapTtyReceiveHdl_touches h).same .registers (by simp)).2.trans (hmode hu)
  | @transmit u τ hl hu hv h =>
      exact ((trapTtyTransmitHdl_touches h).same .registers (by simp)).2.trans (hmode hu)
  | @disk u hl hu hv => exact hmode hu
  | @resume r o τ hl hu hr h =>
      obtain rfl : r = p := Option.some.inj (hr.symm.trans hp)
      rw [finish_ptbr1]
      exact resumeCall_ptbr1 (σ := (σ.begin l).restore r) h rfl

theorem Mapped.step (h : σ.Mapped) (hs : Steps σ l σ') (hp : σ.activeProc ≠ none)
    (hp' : σ'.activeProc ≠ none) : σ'.Mapped := by
  obtain ⟨p, hp⟩ := Option.ne_none_iff_exists'.1 hp
  intro hu
  rw [step_ptbr1 hs h hp]
  rcases step_active hs hp with hact | hact | hmode
  · exact hact.symm
  · exact absurd hact hp'
  · rw [hu] at hmode
    exact absurd hmode (by simp)

/-! ## Frames of different processes -/

theorem HasPage.uses_pos {f : ℕ} (h : σ.HasPage p f) : 0 < (σ.space p).uses f := by
  obtain ⟨i, hi, hv, rfl⟩ := h
  exact Nat.add_pos_left (usesOn_pos (inTable_userPages.2 hi) hv) _

/-- A frame of one process is not free and no other process has it. -/
theorem owned_alone {ps : List Pid} {x : Mem × (Pid → Space)} {f : ℕ}
    (howned : Yalnix.owned ps x f ≤ 1) (hq : q ∈ ps) (hf : 0 < (x.2 q).uses f) :
    f ∉ x.1.freeFrames ∧ ∀ r ∈ ps, r ≠ q → (x.2 r).uses f = 0 := by
  obtain ⟨hfree, -, hothers⟩ := sum_map_alone howned hq hf
  exact ⟨List.count_eq_zero.1 hfree, hothers⟩

theorem loadProgram_of_ne {file : Option Exe} {args : Option (List (List Byte))} {rc : Int}
    (h : σ.loadProgram file args p = some (rc, σ')) (hq : q ≠ p) : σ'.space q = σ.space q := by
  rcases loadProgram_space h with ⟨hspace, -⟩ | ⟨li, -, av, -, b, τ, -, hmap, -, hspace, -⟩
  · rw [hspace]
  · have hsame := mapProgram_of_ne hmap hq
    rcases hspace with hspace | hspace
    · rw [hspace, hsame]
      rfl
    · rw [hspace, protect_of_ne hq, hsame]
      rfl

/-- A step leaves the page tables of the processes that do not run. -/
theorem step_layout (hinv : σ.Placed) (h : Steps σ l σ') (ha : σ.Allocates l σ')
    (hp : σ.activeProc = some p) (hq : q ∈ σ.live) (hne : q ≠ p) :
    SameLayout (σ.space q) (σ'.space q) := by
  have hsame : ∀ {r}, σ.activeProc = some r → q ≠ r := by
    rintro r hr rfl
    exact hne (Option.some.inj (hr.symm.trans hp))
  cases space_step h with
  | refills hrefill hlive => exact hrefill.layout q
  | brk u r o τ hl hc hr hrun he =>
      subst he
      obtain ⟨x, -, hrun⟩ := Option.map_eq_some_iff.1 hrun
      rw [finish_space]
      split at hrun
      · rw [← (Prod.mk.inj hrun).2, setMap_of_ne _ _ (hsame hr)]
        exact .refl _
      · rw [← (Prod.mk.inj hrun).2, setMap_of_ne _ _ (hsame hr)]
        exact .refl _
  | fork u r o τ hl hc hr hrun he =>
      subst he
      obtain ⟨h₀, hlt⟩ := hinv.bound r (hinv.live_of_active hr)
      have href : τ.mem.refused = ((σ.begin l).enter u).mem.refused := by
        rw [← finish_mem o, ha.2]
        rfl
      obtain ⟨τ', hforked, -, -, rfl⟩ := sysFork_forked
        (show ((σ.begin l).enter u).mem.AllOk from ha.begin) h₀ hlt hrun href
      have hready := readyInsert_touches τ' ((σ.begin l).enter u).nextPid
      have hlayout := (hready.same .frames (by simp)).layout q
      dsimp only at hlayout
      rw [hforked.space q (ne_of_lt (hinv.bound q hq).2)] at hlayout
      rw [finish_space]
      exact hlayout
  | exec u r o τ hl hc hr hrun he =>
      subst he
      rw [finish_space]
      rcases sysExec_space hrun with ⟨-, rfl⟩ | ⟨rc, τ', hload, -, hspace, -⟩
      · exact .refl _
      · have hload := loadProgram_of_ne hload (hsame hr)
        rw [hspace, hload]
        exact .refl _
  | exit r τ hr hτ hrun hlive _ =>
      have hfree : (τ.freeSpace r).space q = τ.space q := Function.update_of_ne (hsame hr) _ _
      have hafter := hrun.layout q
      dsimp only at hafter
      rw [hfree] at hafter
      exact (hτ.layout q).trans hafter
  | grow u r τ hl hv hr hfit hrun he =>
      subst he
      obtain ⟨x, -, rfl⟩ := Option.map_eq_some_iff.1 hrun
      have hsp : ∀ y, Function.update σ.space r y q = σ.space q := fun y =>
        Function.update_of_ne (hsame hr) _ _
      change SameLayout (σ.space q) (Function.update σ.space r _ q)
      rw [hsp]
      exact .refl _

theorem HasPage.not_free {f : ℕ} (howned : σ.owned f ≤ 1) (hq : q ∈ σ.live)
    (hf : σ.HasPage q f) : f ∉ σ.mem.freeFrames :=
  (owned_alone (x := (σ.mem, σ.space)) howned hq hf.uses_pos).1

/-- An Exec writes to frames that are the process's own when its program has been mapped. -/
theorem sysExec_phys {f : ℕ} (hinv : σ.live.Nodup) (hp : p ∈ σ.live) (hr : σ.ptbr1 = some p)
    (howned : σ.owned f ≤ 1) (hq : q ∈ σ.live) (hne : q ≠ p) (hf : σ.HasPage q f)
    (h : σ.sysExec p = some (o, σ')) : σ'.phys f = σ.phys f := by
  rcases sysExec_space h with ⟨-, rfl⟩ | ⟨rc, τ, hload, -, -, hphys⟩
  · rfl
  rw [hphys]
  rcases loadProgram_space hload with ⟨-, hsame, -⟩ | ⟨li, -, av, -, b, τ', -, hmap, -, -, hsame⟩
  · rw [hsame]
  have hmalloc : Yalnix.owned σ.live (σ.mem.malloc.2, σ.space) f ≤ σ.owned f :=
    Nat.add_le_add_right (σ.mem.count_malloc_le f) _
  have hmapped : Yalnix.owned σ.live (τ'.mem, τ'.space) f ≤ 1 :=
    (mapProgram_owned hinv hp hmap).trans (hmalloc.trans howned)
  have hspace := mapProgram_of_ne hmap hne
  have hpos : 0 < (τ'.space q).uses f := by
    rw [hspace]
    exact hf.uses_pos
  have hnone : (τ'.space p).uses f = 0 := (owned_alone hmapped hq hpos).2 p hp (Ne.symm hne)
  have htouch := mapProgram_touches hmap
  have hptbr : τ'.ptbr1 = some p := (htouch.same .registers (by simp)).2.trans hr
  rw [hsame]
  · exact congrFun (htouch.same .memory (by simp)) f
  · rw [maps_iff hptbr]
    intro hpage
    exact absurd hnone (Nat.ne_of_gt hpage.uses_pos)

/-! ## Fork -/

/-- The result of a Fork of `p` that has made a private copy of it. -/
structure ForkCopies (σ : Kernel) (p : Pid) (o : Outcome) (σ' : Kernel) : Prop where
  born : σ.nextPid ∉ σ.live ∧ σ'.live = σ.live ++ [σ.nextPid]
  returned : o = .ret σ.nextPid ∧ σ'.uContext = σ.uContext.setRet σ.nextPid
  queued : σ'.readyQueue = σ.readyQueue ++ [σ.nextPid]
  context : (σ'.pcb σ.nextPid).uctxt = σ.uContext.setRet 0
  parent : σ'.space p = σ.space p
  memory : ∀ f, σ.HasPage p f → σ'.phys f = σ.phys f
  limits : (σ'.space σ.nextPid).nextHeapPn = (σ.space p).nextHeapPn ∧
    (σ'.space σ.nextPid).nextStackPn = (σ.space p).nextStackPn
  valid : ∀ i, ((σ'.space σ.nextPid).uPageTable i).valid = true ↔ i ∈ (σ.space p).validPages
  prot : ∀ i ∈ (σ.space p).validPages,
    ((σ'.space σ.nextPid).uPageTable i).prot = ((σ.space p).uPageTable i).prot
  contents : ∀ i ∈ (σ.space p).validPages,
    σ'.phys ((σ'.space σ.nextPid).uPageTable i).pfn = σ.phys ((σ.space p).uPageTable i).pfn
  stack : ∀ i, i = 0 ∨ i = 1 → ((σ'.space σ.nextPid).kStackPt i).valid = true ∧
    ((σ'.space σ.nextPid).kStackPt i).pfn ≠ 0
  distinct : ∀ f, (σ'.space σ.nextPid).uses f ≤ 1
  taken : ∀ f, 0 < (σ'.space σ.nextPid).uses f → f ∈ σ.mem.freeFrames ∧
    f ∉ σ'.mem.freeFrames ∧ ∀ q ∈ σ.live, (σ'.space q).uses f = 0

namespace Forked

/-- The entries of the child's user page table. -/
theorem entry (h : Forked σ p τ) (hframes : σ.forkFrames p ≤ σ.forkMem.supply.length) {i : Int}
    (hi : i ∈ (σ.space p).validPages) :
    ∃ f, (τ.space σ.nextPid).uPageTable i = copiedEntry (σ.space p).uPageTable i f := by
  have hlen : (σ.space p).validPages.length ≤ (σ.forkMem.supply.drop 2).length := by
    rw [List.length_drop]
    exact Nat.le_sub_of_add_le' hframes
  rw [h.child]
  obtain ⟨f, -, hf⟩ := assign_zipWith (f := fun _ => {}) (g := copiedEntry (σ.space p).uPageTable)
    (σ.space p).nodup_validPages hlen hi
  exact ⟨f, hf⟩

theorem entry_of_not_mem (h : Forked σ p τ) {i : Int} (hi : i ∉ (σ.space p).validPages) :
    (τ.space σ.nextPid).uPageTable i = {} := by
  rw [h.child]
  exact assign_of_not_mem hi

theorem stack (h : Forked σ p τ) (hframes : σ.forkFrames p ≤ σ.forkMem.supply.length) {i : Int}
    (hi : i = 0 ∨ i = 1) : ((τ.space σ.nextPid).kStackPt i).valid = true ∧
      ((τ.space σ.nextPid).kStackPt i).pfn ≠ 0 := by
  have hmem : i ∈ pages 0 1 2 := by
    rw [mem_pages_up]
    omega
  have hlen : (pages 0 1 2).length ≤ σ.forkMem.supply.length := by
    rw [length_pages]
    exact le_trans (Nat.le_add_right _ _) hframes
  obtain ⟨f, hf, he⟩ := assign_rw
    (t := fun i => σ.malloc.1.fill (userPagetableSize + i)) hlen hmem
  rw [h.child]
  dsimp only
  rw [he]
  exact ⟨rfl, Mem.ne_zero_of_mem_supply (List.mem_of_mem_take hf)⟩

/-- Fork writes to frames that were free. -/
theorem phys_of_not_free (h : Forked σ p τ) {f : ℕ} (hf : f ∉ σ.mem.freeFrames) :
    τ.phys f = σ.phys f := by
  rw [h.phys]
  apply copyFrames_of_not_mem
  intro hmem
  exact hf ((forkMem_suffix σ).subset ((Mem.supply_sublist _).subset (List.drop_subset _ _ hmem)))

theorem contents (h : Forked σ p τ) (hframes : σ.forkFrames p ≤ σ.forkMem.supply.length)
    (howned : ∀ f, σ.owned f ≤ 1) (hp : p ∈ σ.live) {i : Int}
    (hi : i ∈ (σ.space p).validPages) :
    τ.phys ((τ.space σ.nextPid).uPageTable i).pfn = σ.phys ((σ.space p).uPageTable i).pfn := by
  have hfree : σ.mem.freeFrames.Nodup :=
    List.nodup_iff_count_le_one.2 fun f => (Nat.le_add_right _ _).trans (howned f)
  have hsupply : (σ.forkMem.supply.drop 2).Sublist σ.mem.freeFrames :=
    ((List.drop_sublist _ _).trans (Mem.supply_sublist _)).trans (forkMem_suffix σ).sublist
  rw [h.phys, h.child]
  apply copyFrames_assign (σ.space p).nodup_validPages (hfree.sublist hsupply) _ _ hi
  · rw [List.length_drop]
    exact Nat.le_sub_of_add_le' hframes
  · intro j hj hmem
    obtain ⟨hin, hv⟩ := Space.mem_validPages.1 hj
    have hpage : σ.HasPage p ((σ.space p).uPageTable j).pfn := ⟨j, hin, hv, rfl⟩
    exact hpage.not_free (howned _) hp (hsupply.subset hmem)

/-- The frames of the child were free, and nobody else has them. -/
theorem taken (h : Forked σ p τ) (hframes : σ.forkFrames p ≤ σ.forkMem.supply.length) {f : ℕ}
    (howned : τ.owned f ≤ 1) (hnew : σ.nextPid ∉ σ.live)
    (hf : 0 < (τ.space σ.nextPid).uses f) : f ∈ σ.mem.freeFrames ∧ f ∉ τ.mem.freeFrames ∧
      ∀ q ∈ σ.live, (τ.space q).uses f = 0 := by
  have huses := h.uses_le (f := f) hframes
  have hmem : f ∈ σ.forkMem.freeFrames :=
    List.mem_of_mem_take (List.count_pos_iff.1 (lt_of_lt_of_le hf huses))
  have hchild : σ.nextPid ∈ τ.live := by
    rw [h.live]
    exact List.mem_append_right _ (List.mem_singleton_self _)
  obtain ⟨hfree, hothers⟩ := owned_alone (x := (τ.mem, τ.space)) howned hchild hf
  refine ⟨(forkMem_suffix σ).subset hmem, hfree, fun q hq => hothers q ?_ ?_⟩
  · rw [h.live]
    exact List.mem_append_left _ hq
  · rintro rfl
    exact hnew hq

end Forked

/-- A Fork in which no allocation fails makes a private copy, if no frame is in two
places. -/
theorem sysFork_private (hok : σ.mem.AllOk) (hbound : ∀ q ∈ σ.live, 0 ≤ q ∧ q < σ.nextPid)
    (hp : p ∈ σ.live) (howned : ∀ f, σ.owned f ≤ 1) (h : σ.sysFork p = some (o, σ'))
    (href : σ'.mem.refused = σ.mem.refused) : ForkCopies σ p o (finish (o, σ')) := by
  have hnew : σ.nextPid ∉ σ.live := fun hmem => lt_irrefl _ (hbound _ hmem).2
  have hne : p ≠ σ.nextPid := ne_of_lt (hbound p hp).2
  have hregs := ((sysFork_touches h).same .registers (by simp)).1
  obtain ⟨τ, hforked, hframes, rfl, rfl⟩ :=
    sysFork_forked hok (hbound p hp).1 (hbound p hp).2 h href
  have hafter : ∀ f, τ.owned f ≤ 1 := fun f => (hforked.owned_le hframes hnew).trans (howned f)
  have hτ : τ.mem.AllOk := by
    rw [hforked.mem]
    exact hok.malloc.malloc.malloc
  rw [readyInsert_ok hτ] at hregs ⊢
  exact {
    born := ⟨hnew, hforked.live⟩
    returned := ⟨rfl, congrArg (UserContext.setRet · σ.nextPid) hregs⟩
    queued := congrArg (· ++ [σ.nextPid]) hforked.queue
    context := congrArg Pcb.uctxt hforked.context
    parent := hforked.space p hne
    memory := fun f hf => hforked.phys_of_not_free (hf.not_free (howned f) hp)
    limits := by
      change (τ.space σ.nextPid).nextHeapPn = _ ∧ (τ.space σ.nextPid).nextStackPn = _
      rw [hforked.child]
      exact ⟨rfl, rfl⟩
    valid := fun i => by
      change ((τ.space σ.nextPid).uPageTable i).valid = true ↔ _
      by_cases hi : i ∈ (σ.space p).validPages
      · obtain ⟨f, hf⟩ := hforked.entry hframes hi
        rw [hf]
        exact iff_of_true rfl hi
      · rw [hforked.entry_of_not_mem hi]
        exact iff_of_false (by simp) hi
    prot := fun i hi => by
      obtain ⟨f, hf⟩ := hforked.entry hframes hi
      change ((τ.space σ.nextPid).uPageTable i).prot = _
      rw [hf]
      rfl
    contents := fun i hi => hforked.contents hframes howned hp hi
    stack := fun i hi => hforked.stack hframes hi
    distinct := fun f => by
      have hchild : σ.nextPid ∈ τ.live := by
        rw [hforked.live]
        exact List.mem_append_right _ (List.mem_singleton_self _)
      have hsum := List.sum_map_erase (fun q => (τ.space q).uses f) hchild
      have hle := hafter f
      unfold Kernel.owned Yalnix.owned at hle
      change (τ.space σ.nextPid).uses f ≤ 1
      dsimp only at hle
      omega
    taken := fun f hf => by
      obtain ⟨hfree, hgone, hothers⟩ := hforked.taken hframes (hafter f) hnew hf
      exact ⟨hfree, fun hmem => hgone (τ.mem.malloc_suffix.subset hmem), hothers⟩ }

/-! ## Runs -/

theorem Steps.userMode_of_trap {u : UserContext} (h : Steps σ l σ') (hl : l.event = .trap u) :
    σ.userMode = true := by
  cases h with
  | store hl' => simp [hl] at hl'
  | resume hl' => simp [hl] at hl'
  | _ => assumption

/-- A step of `p` changes neither the page table nor the memory of another process. -/
def Isolates (σ : Kernel) (p : Pid) (σ' : Kernel) : Prop :=
  ∀ q ∈ σ.live, q ≠ p → (σ'.space q).uPageTable = (σ.space q).uPageTable ∧
    ∀ f, σ.HasPage q f → σ'.phys f = σ.phys f

theorem step_isolates (hinv : σ.Placed) (hmap : σ.Mapped) (howned : ∀ f, σ.owned f ≤ 1)
    (h : Steps σ l σ') (ha : σ.Allocates l σ') (hp : σ.activeProc = some p) :
    σ.Isolates p σ' := by
  intro q hq hne
  have hlive := hinv.live_of_active hp
  refine ⟨(step_layout hinv h ha hp hq hne).table, fun f hf => ?_⟩
  have hfree : f ∉ σ.mem.freeFrames := hf.not_free (howned f) hq
  by_cases hfork : l.call = some .fork
  · obtain ⟨u, r, o, τ, hl, -, hr, hrun, rfl, -⟩ := h.of_call hfork
    obtain ⟨h₀, hlt⟩ := hinv.bound r (hinv.live_of_active hr)
    have href : τ.mem.refused = ((σ.begin l).enter u).mem.refused := by
      rw [← finish_mem o, ha.2]
      rfl
    obtain ⟨τ', hforked, -, -, rfl⟩ := sysFork_forked
      (show ((σ.begin l).enter u).mem.AllOk from ha.begin) h₀ hlt hrun href
    rw [finish_phys]
    exact hforked.phys_of_not_free hfree
  by_cases hexec : l.call = some .exec
  · obtain ⟨u, r, o, τ, hl, -, hr, hrun, rfl, -⟩ := h.of_call hexec
    obtain rfl : r = p := Option.some.inj (hr.symm.trans hp)
    have hmode := h.userMode_of_trap hl
    rw [finish_phys]
    exact sysExec_phys (σ := (σ.begin l).enter u) hinv.nodup hlive ((hmap hmode).trans hp)
      (howned f) hq hne hf hrun
  · refine step_phys h hmap hp hfork hexec fun hpage => ?_
    have hnone := (owned_alone (x := (σ.mem, σ.space)) (howned f) hq hf.uses_pos).2 p hlive hne.symm
    exact absurd hnone (Nat.ne_of_gt hpage.uses_pos)

variable {b : Boot} {σ₀ : Kernel} {tr : List (Move Kernel Label)}

theorem mapped_boot (h : kernelStart b = some σ₀) : σ₀.Mapped := by
  intro _
  rw [(kernelStart_booted h).active]
  unfold kernelStart at h
  obtain ⟨m, -, h⟩ := Option.bind_eq_some_iff.1 h
  obtain ⟨σ₁, -, h⟩ := Option.bind_eq_some_iff.1 h
  obtain ⟨σ₂, -, h⟩ := Option.bind_eq_some_iff.1 h
  obtain ⟨r, -, rfl⟩ := Option.map_eq_some_iff.1 h
  rfl

theorem mapped_of_run (hok : ∀ a ∈ b.procMallocs, a.ok = true) (h₀ : kernelStart b = some σ₀)
    (h : Run step (fun σ l σ' => σ.Allocates l σ' ∧ σ.IdlePauses l) σ₀ tr σ) :
    σ.Placed ∧ σ.Mapped := by
  refine h.invariant (I := fun σ => σ.Placed ∧ σ.Mapped) ?_ ?_
  · exact ⟨(stacked_of_run hok h₀ .start).1, mapped_boot h₀⟩
  · rintro σ l σ' ⟨hinv, hmap⟩ hs ⟨ha, hi⟩
    have hinv' := hinv.step (step_cases hs) ha hi
    exact ⟨hinv', hmap.step (step_cases hs) hinv.active hinv'.active⟩

/-- In every run in which frames and kernel memory are always available, each Fork makes a
private copy of its process, and no step of a process changes the memory of another. -/
theorem run_forks (hok : ∀ a ∈ b.procMallocs, a.ok = true) (h₀ : kernelStart b = some σ₀)
    (h : Run step (fun σ l σ' => σ.Allocates l σ' ∧ σ.IdlePauses l) σ₀ tr σ) :
    ∀ m ∈ tr, ∃ p, m.before.activeProc = some p ∧ m.before.Isolates p m.after ∧
      (m.label.call = some .fork → ∃ o, m.before.outcome m.label = some o ∧
        ForkCopies (m.before.callState m.label) p o m.after) := by
  intro m hm
  obtain ⟨tr', hr, hs, ha, hi⟩ := h.reaches_before hm
  obtain ⟨hinv, hmap⟩ := mapped_of_run hok h₀ hr
  have howned : ∀ f, m.before.owned f ≤ 1 := run_owned hok h₀ hr
  obtain ⟨p, hp⟩ := Option.ne_none_iff_exists'.1 hinv.active
  have hsteps := step_cases hs
  refine ⟨p, hp, step_isolates hinv hmap howned hsteps ha hp, fun hfork => ?_⟩
  obtain ⟨u, r, o, τ, hl, -, hr, hrun, he, ho⟩ := hsteps.of_call hfork
  obtain rfl : r = p := Option.some.inj (hr.symm.trans hp)
  refine ⟨o, ho, ?_⟩
  rw [callState_trap hl, he]
  have href : τ.mem.refused = ((m.before.begin m.label).enter u).mem.refused := by
    rw [← finish_mem o, ← he, ha.2]
    rfl
  exact sysFork_private (show ((m.before.begin m.label).enter u).mem.AllOk from ha.begin)
    hinv.bound (hinv.live_of_active hp) howned hrun href

/-- Init of the small machine forks and then writes to its memory. -/
theorem run_forks_small : ∃ σ₀ tr σ, kernelStart smallBoot = some σ₀ ∧ tr.length = 2 ∧
    Run step (fun σ l σ' => σ.Allocates l σ' ∧ σ.IdlePauses l) σ₀ tr σ ∧
      ∀ m ∈ tr, ∃ p, m.before.activeProc = some p ∧ m.before.Isolates p m.after ∧
        (m.label.call = some .fork → ∃ o, m.before.outcome m.label = some o ∧
          ForkCopies (m.before.callState m.label) p o m.after) := by
  obtain ⟨σ₀, tr, σ, h₀, hr, hlen⟩ := bootExec_run (b := smallBoot)
    (C := fun σ l σ' => σ.Allocates l σ' ∧ σ.IdlePauses l)
    (t := [smallCall .fork 0 0 0, { event := .store 0x100000 7 }]) (by decide +kernel)
  exact ⟨σ₀, tr, σ, h₀, hlen, hr, run_forks (by decide) h₀ hr⟩

end Kernel

end Yalnix
