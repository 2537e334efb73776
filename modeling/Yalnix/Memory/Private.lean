import Yalnix.Memory.Image
import Yalnix.Tree.ProcessTable

/-!
# Private memory

What user code sees is one memory for each process. Between two steps in which a process maps
pages or has the kernel write to its memory, that memory is what its own stores have made of
it: neither the other processes, nor interrupts, nor switches change a byte, and the frames
that the pages are in do not matter.
-/

namespace Yalnix

open Transition

/-- The calls that neither map pages nor write to user memory. -/
def Call.keepsMemory : Call → Bool
  | .brk | .exec | .exit | .wait | .ttyRead | .pipeInit | .pipeRead | .lockInit | .cvarInit => false
  | _ => true

/-- The places where a process continues without writing to user memory. -/
def KernelContext.keepsMemory : KernelContext → Bool
  | .wait _ _ | .ttyRead _ | .pipeRead _ _ _ _ _ => false
  | _ => true

namespace Kernel

variable {σ σ' σ₀ τ : Kernel} {l : Label} {p q : Pid} {tr tr' : List (Move Kernel Label)}
  {b : Boot}

/-- The memory that process `p` sees, from the beginning of region 1. -/
def userMemory (σ : Kernel) (p : Pid) : ℕ → Byte := (σ.space p).uPageTable.bytes σ.phys

/-- The process that runs stores a byte, is interrupted, or is in a call that neither maps pages
nor writes to user memory. -/
def keepsMemory (σ : Kernel) (l : Label) : Bool :=
  match l.event with
  | .store _ _ => true
  | .trap u => u.vector ∈ ([1, 5, 6, 7] : List Int) || l.call.any Call.keepsMemory
  | .resume => σ.activeProc.all fun p => (σ.pcb p).kctxt.keepsMemory

/-- The byte that process `p` stores in a move, and where. -/
def storeOf (p : Pid) (m : Move Kernel Label) : Option (ℕ × Byte) :=
  match m.label.event with
  | .store a x => if m.before.activeProc = some p then some (userOffset a, x) else none
  | _ => none

/-- The memory `m` after the stores `ss`. -/
def replay (m : ℕ → Byte) (ss : List (ℕ × Byte)) : ℕ → Byte :=
  ss.foldl (fun m s => Function.update m s.1 s.2) m

/-- The page table of `q` is the same, and so is what its pages hold. -/
def KeepsPages (σ : Kernel) (q : Pid) (σ' : Kernel) : Prop :=
  (σ'.space q).uPageTable = (σ.space q).uPageTable ∧ ∀ f, σ.HasPage q f → σ'.phys f = σ.phys f

theorem KeepsPages.userMemory (h : σ.KeepsPages q σ') : σ'.userMemory q = σ.userMemory q := by
  obtain ⟨htable, hphys⟩ := h
  funext k
  unfold Kernel.userMemory PageTable.bytes
  rw [htable]
  split
  · rename_i hk
    have hpage : σ.HasPage q ((σ.space q).uPageTable.entryOf k).pfn :=
      ⟨_, inTable_page hk.1, hk.2, rfl⟩
    rw [hphys _ hpage]
  · rfl

/-- A step that touches neither frames nor memory nor pids. -/
theorem keeps_of_touches {vs : List View} (h : Touches vs σ σ')
    (hvs : View.frames ∉ vs ∧ View.memory ∉ vs ∧ View.pids ∉ vs) (hq : q ∈ σ.live) :
    q ∈ σ'.live ∧ σ.KeepsPages q σ' := by
  have hrefill : Refill (σ.mem, σ.space) (σ'.mem, σ'.space) := h.same .frames hvs.1
  have hphys : σ'.phys = σ.phys := h.same .memory hvs.2.1
  have hlive : σ'.live = σ.live := (h.same .pids hvs.2.2).2
  exact ⟨hlive ▸ hq, (hrefill.layout q).table, fun f _ => by rw [hphys]⟩

/-! ## The steps of the process itself -/

/-- With no frame in two places, the pages of a process have frames of their own. -/
theorem separate_of_owned (howned : ∀ f, σ.owned f ≤ 1) (hp : p ∈ σ.live) :
    (σ.space p).uPageTable.Separate := by
  have hnodup := (nodup_userFrames howned hp).of_append_right
  intro i hi hv j hj hv' hframe
  exact List.inj_on_of_nodup_map hnodup (Space.mem_validPages.2 ⟨hi, hv⟩)
    (Space.mem_validPages.2 ⟨hj, hv'⟩) hframe

theorem translate_region {prot : ℕ} {a : Word} {x : ℕ × ℕ} (h : σ.translate prot a = some x) :
    userOffset a < 2 ^ 20 := by
  unfold translate at h
  split at h
  · rename_i hregion
    have hlow : 0x100000 ≤ a.toNat := hregion.1
    have hhigh : a.toNat < 0x200000 := hregion.2
    have hbase : vmem1Base.toNat = 0x100000 := rfl
    rw [userOffset, BitVec.toNat_sub, hbase]
    omega
  · exact absurd h (by simp)

/-- A store of the process that runs is a store to its memory. -/
theorem store_userMemory {a : Word} {x : Byte} (hq : σ.ptbr1 = some p)
    (ht : (σ.space p).uPageTable.Separate) (h : σ.copyOut a [x] = some σ') :
    (σ'.space p).uPageTable = (σ.space p).uPageTable ∧
      σ'.userMemory p = Function.update (σ.userMemory p) (userOffset a) x := by
  obtain ⟨phys, hphys, rfl⟩ := Option.map_eq_some_iff.1 h
  obtain ⟨y, hy, hphys⟩ := Option.bind_eq_some_iff.1 hphys
  obtain rfl := Option.some.inj hphys
  have hk := translate_region hy
  refine ⟨rfl, ?_⟩
  rw [← userAddr_userOffset a, translate_userAddr hq hk] at hy
  split at hy
  · rename_i hentry
    obtain rfl := Option.some.inj hy
    exact bytes_update ht hk hentry.1 x
  · exact absurd hy (by simp)

/-- What process `p` reads is a byte of its memory. -/
theorem loadByte_userMemory {a : Word} {x : Byte} (hq : σ.ptbr1 = some p)
    (h : σ.loadByte a = some x) : σ.userMemory p (userOffset a) = x := by
  obtain ⟨y, hy, rfl⟩ := Option.map_eq_some_iff.1 h
  have hk := translate_region hy
  rw [← userAddr_userOffset a, translate_userAddr hq hk] at hy
  split at hy
  · rename_i hentry
    obtain rfl := Option.some.inj hy
    exact if_pos ⟨hk, hentry.1⟩
  · exact absurd hy (by simp)

/-- A Fork leaves the memory of the parent as it is. -/
theorem fork_keeps (hinv : σ.Placed) (howned : ∀ f, σ.owned f ≤ 1) (h : Steps σ l σ')
    (ha : σ.Allocates l σ') (hl : l.call = some .fork) (hp : p ∈ σ.live) :
    p ∈ σ'.live ∧ σ.KeepsPages p σ' := by
  obtain ⟨u, r, o, τ, hl, -, hr, hrun, rfl, -⟩ := h.of_call hl
  obtain ⟨h₀, hlt⟩ := hinv.bound r (hinv.live_of_active hr)
  have href : τ.mem.refused = ((σ.begin l).enter u).mem.refused := by
    rw [← finish_mem o, ha.2]
    rfl
  obtain ⟨τ', hforked, -, -, rfl⟩ := sysFork_forked
    (show ((σ.begin l).enter u).mem.AllOk from ha.begin) h₀ hlt hrun href
  have hready := readyInsert_touches τ' ((σ.begin l).enter u).nextPid
  refine ⟨?_, ?_, ?_⟩
  · have hlive := ((hready.seq (finish_touches o _)).same .pids (by simp)).2
    rw [hlive, hforked.live]
    exact List.mem_append_left _ hp
  · have hlayout := (hready.same .frames (by simp)).layout p
    dsimp only at hlayout
    rw [hforked.space p (ne_of_lt (hinv.bound p hp).2)] at hlayout
    rw [finish_space]
    exact hlayout.table
  · intro f hf
    rw [finish_phys]
    exact hforked.phys_of_not_free (hf.not_free (howned f) hp)

theorem callViews_keepsMemory {c : Call} (h : c.keepsMemory = true) (hfork : c ≠ .fork) :
    View.frames ∉ callViews c ∧ View.memory ∉ callViews c ∧ View.pids ∉ callViews c := by
  cases c <;> simp [callViews, Call.keepsMemory] at h hfork ⊢

theorem resumeViews_keepsMemory {k : KernelContext} (h : k.keepsMemory = true) :
    View.frames ∉ resumeViews k ∧ View.memory ∉ resumeViews k ∧ View.pids ∉ resumeViews k := by
  cases k <;> simp [resumeViews, KernelContext.keepsMemory] at h ⊢

/-- In a step that keeps its memory and stores nothing, a process keeps its pages and what they
hold. -/
theorem keepsMemory_step (hinv : σ.Placed) (howned : ∀ f, σ.owned f ≤ 1) (h : Steps σ l σ')
    (ha : σ.Allocates l σ') (hk : σ.keepsMemory l = true) (hnot : ∀ a x, l.event ≠ .store a x)
    (hp : p ∈ σ.live) : p ∈ σ'.live ∧ σ.KeepsPages p σ' := by
  have htrap : ∀ {u : UserContext}, l.event = .trap u →
      u.vector ∈ ([1, 5, 6, 7] : List Int) ∨ l.call.any Call.keepsMemory = true := by
    intro u hl
    unfold keepsMemory at hk
    simpa [hl] using hk
  have hvector : ∀ {u : UserContext}, l.event = .trap u →
      ¬u.vector ∉ ([0, 1, 5, 6, 7] : List Int) := by
    intro u hl hv
    rcases htrap hl with hmem | hkeeps
    · exact hv (List.mem_cons_of_mem _ hmem)
    · obtain ⟨c, hc, -⟩ := (Option.any_eq_true _ _).1 hkeeps
      have hzero := Label.vector_of_call hc
      simp only [Label.vector, hl, Option.some.injEq] at hzero
      exact hv (by rw [hzero]; decide)
  cases h with
  | store hl hu h => exact absurd hl (hnot _ _)
  | @call u r c o τ hl hu hv hr hc h =>
      have hcall : l.call = some c := by simp [Label.call, hl, hv, hc]
      by_cases hfork : c = .fork
      · subst hfork
        exact fork_keeps hinv howned (.call hl hu hv hr hc h) ha hcall hp
      have hkeeps : c.keepsMemory = true := by
        rcases htrap hl with hvec | hkeeps
        · rw [hv] at hvec
          exact absurd hvec (by decide)
        · rwa [hcall] at hkeeps
      have hviews := callViews_keepsMemory hkeeps hfork
      exact keeps_of_touches (σ := (σ.begin l).enter u)
        ((sysCall_touches h).seq (finish_touches o τ)) (by simpa using hviews) hp
  | @clock u τ hl hu hv h =>
      exact keeps_of_touches (σ := (σ.begin l).enter u) (trapClockHdl_touches h) (by simp) hp
  | @abort u r o τ hl hu hv hr h => exact absurd hv (hvector hl)
  | @grow u r τ hl hu hv hr hfit h => exact absurd (by rw [hv]; decide) (hvector hl)
  | @receive u τ hl hu hv h =>
      exact keeps_of_touches (σ := (σ.begin l).enter u)
        ((trapTtyReceiveHdl_touches h).seq (returnUser_touches τ)) (by simp) hp
  | @transmit u τ hl hu hv h =>
      exact keeps_of_touches (σ := (σ.begin l).enter u)
        ((trapTtyTransmitHdl_touches h).seq (returnUser_touches τ)) (by simp) hp
  | @disk u hl hu hv =>
      exact keeps_of_touches (σ := (σ.begin l).enter u) (returnUser_touches _) (by simp) hp
  | @resume r o τ hl hu hr h =>
      have hkeeps : (σ.pcb r).kctxt.keepsMemory = true := by
        unfold keepsMemory at hk
        simpa [hl, hr] using hk
      have hviews := resumeViews_keepsMemory hkeeps
      exact keeps_of_touches (σ := (σ.begin l).restore r)
        ((resumeCall_touches h).seq (finish_touches o τ)) (by simpa using hviews) hp

/-! ## Runs -/

/-- A step in which `p`, if it runs, keeps its memory does to it what its store says, if it is
one. -/
theorem userMemory_step (hinv : σ.Placed) (hmap : σ.Mapped) (howned : ∀ f, σ.owned f ≤ 1)
    (h : Steps σ l σ') (ha : σ.Allocates l σ') (hp : p ∈ σ.live)
    (hk : σ.activeProc = some p → σ.keepsMemory l = true) :
    p ∈ σ'.live ∧ σ'.userMemory p = replay (σ.userMemory p) (storeOf p ⟨σ, l, σ'⟩).toList := by
  by_cases hact : σ.activeProc = some p
  swap
  · obtain ⟨r, hr⟩ := Option.ne_none_iff_exists'.1 hinv.active
    have hne : p ≠ r := by
      rintro rfl
      exact hact hr
    have hnone : storeOf p ⟨σ, l, σ'⟩ = none := by
      unfold storeOf
      split
      · rw [if_neg hact]
      · rfl
    rw [hnone]
    exact ⟨(live_step h hp hact).1,
      KeepsPages.userMemory (step_isolates hinv hmap howned h ha hr p hp hne)⟩
  by_cases hstore : ∃ a x, l.event = .store a x
  · obtain ⟨a, x, hl⟩ := hstore
    have hsome : storeOf p ⟨σ, l, σ'⟩ = some (userOffset a, x) := by
      simp only [storeOf, hl, hact, if_true]
    rw [hsome]
    cases h with
    | store hl' hu h =>
        obtain ⟨rfl, rfl⟩ := Event.store.inj (hl.symm.trans hl')
        have hlive := ((copyOut_touches h).same .pids (by simp)).2
        have hstored := store_userMemory (σ := σ.begin l) ((hmap hu).trans hact)
          (separate_of_owned howned hp) h
        exact ⟨hlive ▸ hp, hstored.2⟩
    | _ => simp_all
  · have hnot : ∀ a x, l.event ≠ .store a x := fun a x hl => hstore ⟨a, x, hl⟩
    have hnone : storeOf p ⟨σ, l, σ'⟩ = none := by
      unfold storeOf
      split
      · exact absurd ‹_› (hnot _ _)
      · rfl
    obtain ⟨hlive, hkeeps⟩ := keepsMemory_step hinv howned h ha (hk hact) hnot hp
    rw [hnone]
    exact ⟨hlive, hkeeps.userMemory⟩

end Kernel

end Yalnix
