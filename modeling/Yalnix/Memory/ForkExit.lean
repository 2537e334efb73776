import Yalnix.Memory.Fault

/-!
# A Fork and the Exit of its child

Fork takes two frames for the kernel stack of the child and one for each page of the parent.
Exit gives the frames of the child back, one list node after the other, and does not look
at whether there was memory for the node. Between the two the child may be dispatched any
number of times, which makes no second kernel stack.
-/

namespace Yalnix

open Transition

/-- The frames of the two pages of a kernel stack, as far as they are valid. -/
def Space.stackFrames (x : Space) : List ℕ :=
  ((pages 0 1 2).filter fun i => (x.kStackPt i).valid).map fun i => (x.kStackPt i).pfn

/-- No call of `malloc` in the step grows the kernel heap. -/
def Label.Still (l : Label) : Prop := ∀ a ∈ l.mallocs, a.grow = []

namespace Kernel

/-- The list of free frames and the page tables are the same. -/
structure SameFrames (σ σ' : Kernel) : Prop where
  free : σ'.mem.freeFrames = σ.mem.freeFrames
  user : ∀ q, (σ'.space q).uPageTable = (σ.space q).uPageTable
  stack : ∀ q, (σ'.space q).kStackPt = (σ.space q).kStackPt

/-- The step neither takes nor frees frames: it is one of scheduling that makes no kernel
stack, unless it should make that of `c`, or one that leaves the frames as they are. -/
def Undisturbed (c : Pid) (σ : Kernel) (l : Label) (σ' : Kernel) : Prop :=
  l.Still ∧ (l.Scheduling ∧ (∀ q, q ≠ c → σ.stack q = 0 → σ'.stack q = 0) ∨ SameFrames σ σ')

/-- When the child `c` of `p` has exited in `σ'`, the frames are as before the Fork in `σ`. -/
structure Restored (σ σ' : Kernel) (p c : Pid) : Prop where
  free : σ'.mem.freeFrames.Perm σ.mem.freeFrames
  user : ∀ i, inTable i → ((σ'.space c).uPageTable i).valid = false
  stack : ∀ i ∈ pages 0 1 2, ((σ'.space c).kStackPt i).valid = false
  parent : (σ'.space p).uPageTable = (σ.space p).uPageTable ∧
    (σ'.space p).kStackPt = (σ.space p).kStackPt

/-- How often Exit calls `malloc` before it gives frames back. -/
def deathMallocs (σ : Kernel) (c : Pid) : ℕ := if (σ.bereaved c c).ppid = -1 then 0 else 2

/-- There is a list node for every frame that the Exit of `c` gives back in step `l`. -/
def NodesFit (σ : Kernel) (l : Label) (c : Pid) : Prop :=
  ∀ i < (σ.space c).validPages.length + 2,
    (σ.begin l).mem.mallocOk ((σ.begin l).deathMallocs c + i) = true

variable {σ σ' τ : Kernel} {l : Label} {p c : Pid} {o : Outcome}

/-! ## What Fork takes -/

/-- A Fork that does not fail has got all its frames. -/
theorem sysFork_succeeds (hp : p < σ.nextPid) (h : σ.sysFork p = some (o, σ'))
    (ho : o ≠ .ret error) : ∃ τ, Forked σ p τ ∧ σ.forkFrames p ≤ σ.forkMem.supply.length ∧
      o = .ret σ.nextPid ∧ σ' = (τ.readyInsert σ.nextPid).2 := by
  cases hblock : σ.mem.malloc.1.ok with
  | false =>
      rw [sysFork_noBlock hblock] at h
      exact absurd (Prod.mk.inj (Option.some.inj h)).1.symm ho
  | true =>
      by_cases hroom : σ.nextPid < maxProc
      swap
      · rw [sysFork_noRoom hblock (not_lt.1 hroom)] at h
        exact absurd h (by simp)
      cases hhead : σ.forkHead with
      | false =>
          rw [sysFork_noHead hblock hroom hhead] at h
          exact absurd (Prod.mk.inj (Option.some.inj h)).1.symm ho
      | true =>
          by_cases henough : σ.forkFrames p ≤ σ.forkMem.supply.length
          · obtain ⟨τ, hτ, hrun⟩ := sysFork_enough hblock hroom hhead (ne_of_lt hp) henough
            obtain ⟨rfl, rfl⟩ := Prod.mk.inj (Option.some.inj (h.symm.trans hrun))
            exact ⟨τ, hτ, henough, rfl, rfl⟩
          · exact absurd (sysFork_short hblock hroom hhead (ne_of_lt hp) (not_le.1 henough) h).1 ho

/-- The entries of copied pages have the frames, in order. -/
theorem map_copiedEntry (parent : PageTable) (is : List Int) (fs : List ℕ) :
    (List.zipWith (copiedEntry parent) is fs).map Pte.pfn = fs.take is.length := by
  induction is generalizing fs with
  | nil => rfl
  | cons i is ih =>
      cases fs with
      | nil => rfl
      | cons f fs =>
          rw [List.zipWith_cons_cons, List.map_cons, ih, List.length_cons, List.take_succ_cons]
          rfl

/-- The child has copies of the valid pages of its parent, in the frames that were free behind
the first two. -/
theorem Forked.userFrames (h : Forked σ p τ) (hlen : σ.forkFrames p ≤ σ.forkMem.supply.length) :
    (τ.space σ.nextPid).validPages = (σ.space p).validPages ∧
      (τ.space σ.nextPid).userFrames =
        (σ.forkMem.supply.drop 2).take (σ.space p).validPages.length := by
  have hpages := (σ.space p).nodup_validPages
  have hsupply : (σ.space p).validPages.length ≤ (σ.forkMem.supply.drop 2).length := by
    rw [forkFrames] at hlen
    rw [List.length_drop]
    omega
  have hvalid : (τ.space σ.nextPid).validPages = (σ.space p).validPages := by
    apply List.filter_congr
    intro i hi
    rw [h.child]
    dsimp only
    by_cases hmem : i ∈ (σ.space p).validPages
    · obtain ⟨f, -, hf⟩ := assign_zipWith (f := fun _ => ({} : Pte))
        (g := copiedEntry (σ.space p).uPageTable) hpages hsupply hmem
      rw [hf, (Space.mem_validPages.1 hmem).2]
      rfl
    · rw [assign_of_not_mem hmem]
      symm
      rw [Bool.eq_false_iff]
      intro hv
      exact hmem (Space.mem_validPages.2 ⟨inTable_userPages.1 hi, hv⟩)
  refine ⟨hvalid, ?_⟩
  have hzip : (σ.space p).validPages.length ≤ (List.zipWith (copiedEntry (σ.space p).uPageTable)
      (σ.space p).validPages (σ.forkMem.supply.drop 2)).length := by
    rw [List.length_zipWith]
    omega
  have hmap := congrArg (List.map Pte.pfn) (map_assign (f := fun _ => ({} : Pte)) hpages hzip)
  rw [List.map_map] at hmap
  rw [Space.userFrames, hvalid, h.child]
  refine hmap.trans ?_
  rw [List.map_take, map_copiedEntry, List.take_take, min_self]

/-- The first two frames are those of the kernel stack of the child. -/
theorem Forked.stackFrames (h : Forked σ p τ) (hlen : σ.forkFrames p ≤ σ.forkMem.supply.length) :
    (τ.space σ.nextPid).stackFrames = σ.forkMem.supply.take 2 ∧ τ.stack σ.nextPid ≠ 0 := by
  have hsupply : (pages 0 1 2).length ≤ (σ.forkMem.supply.map Pte.rw).length := by
    rw [forkFrames] at hlen
    rw [List.length_map, length_pages]
    omega
  have hentry : ∀ i ∈ pages 0 1 2, ∃ f ∈ σ.forkMem.supply,
      (τ.space σ.nextPid).kStackPt i = Pte.rw f := by
    intro i hi
    rw [h.child]
    obtain ⟨f, hf, he⟩ := assign_rw (t := fun i => σ.malloc.1.fill (userPagetableSize + i))
      (by simpa using hsupply) hi
    exact ⟨f, List.mem_of_mem_take hf, he⟩
  have hvalid : (pages 0 1 2).filter (fun i => ((τ.space σ.nextPid).kStackPt i).valid) =
      pages 0 1 2 := by
    rw [List.filter_eq_self]
    intro i hi
    obtain ⟨f, -, hf⟩ := hentry i hi
    rw [hf]
    rfl
  constructor
  · have hmap := congrArg (List.map Pte.pfn)
      (map_assign (f := fun i => σ.malloc.1.fill (userPagetableSize + i)) (nodup_pages_up 0 2)
        hsupply)
    rw [Space.stackFrames, hvalid, h.child]
    rw [List.map_map] at hmap
    refine hmap.trans ?_
    rw [← List.map_take, List.map_map, length_pages]
    exact List.map_id _
  · obtain ⟨f, hf, he⟩ := hentry 0 (by decide)
    rw [stack, he]
    exact Mem.ne_zero_of_mem_supply hf

theorem readyInsert_mem (σ : Kernel) (q : Pid) : (σ.readyInsert q).2.mem = σ.mem.malloc.2 := by
  unfold readyInsert
  rw [listInsert_last]
  split <;> rfl

/-- What a Fork that succeeds does to the frames: the child has those that came first in the list
of free frames, and it has a kernel stack. -/
structure ForkTakes (σ σ' : Kernel) (c : Pid) : Prop where
  frames : ((σ'.space c).userFrames ++ (σ'.space c).stackFrames ++ σ'.mem.freeFrames).Perm
    σ.mem.freeFrames
  length : (σ'.space c).stackFrames.length = 2
  stack : σ'.stack c ≠ 0
  others : ∀ q, q ≠ c → σ'.space q = σ.space q

theorem Forked.takes (h : Forked σ p τ) (hlen : σ.forkFrames p ≤ σ.forkMem.supply.length)
    (hstill : σ.mem.Still) : ForkTakes σ (τ.readyInsert σ.nextPid).2 σ.nextPid := by
  obtain ⟨-, huser⟩ := h.userFrames hlen
  obtain ⟨hstack, hne⟩ := h.stackFrames hlen
  have hfork : σ.forkMem.freeFrames = σ.mem.freeFrames := by
    rw [forkMem, hstill.malloc.malloc.malloc_eq, hstill.malloc.malloc_eq, hstill.malloc_eq]
  have hforkStill : σ.forkMem.Still := hstill.malloc.malloc.malloc
  have hτ : τ.mem.Still := by
    rw [h.mem]
    exact hforkStill
  have hmem : (τ.readyInsert σ.nextPid).2.mem.freeFrames =
      σ.mem.freeFrames.drop (σ.forkFrames p) := by
    rw [readyInsert_mem, hτ.malloc_eq, h.mem, ← hfork]
    rfl
  constructor
  · change ((τ.space σ.nextPid).userFrames ++ (τ.space σ.nextPid).stackFrames ++
      (τ.readyInsert σ.nextPid).2.mem.freeFrames).Perm _
    -- the frames that have been taken, in the order in which they were in the list
    have htaken : σ.forkMem.supply.take 2 ++
        (σ.forkMem.supply.drop 2).take (σ.space p).validPages.length =
          σ.mem.freeFrames.take (σ.forkFrames p) := by
      rw [← hfork, ← Mem.take_supply hlen, forkFrames, List.take_add]
    rw [hmem, huser, hstack]
    refine (List.perm_append_comm.append_right _).trans ?_
    rw [htaken, List.take_append_drop]
  · change (τ.space σ.nextPid).stackFrames.length = 2
    rw [hstack, List.length_take]
    rw [forkFrames] at hlen
    omega
  · exact hne
  · exact h.space

/-! ## Scheduling in between -/

/-- Refills leave the frames as they are, or they make a kernel stack of two of them. -/
theorem Refill.still {x y : Mem × (Pid → Space)} (h : Refill x y) (hstill : x.1.Still) :
    y.1.Still ∧ (y.1.freeFrames = x.1.freeFrames ∧ y.2 = x.2 ∨
      y.1.freeFrames.length + 2 ≤ x.1.freeFrames.length ∧
        ∃ q, ((x.2 q).kStackPt 0).pfn = 0 ∧ ((y.2 q).kStackPt 0).pfn ≠ 0) := by
  induction h with
  | refl => exact ⟨hstill, .inl ⟨rfl, rfl⟩⟩
  | @malloc m s _ ih =>
      obtain ⟨hm, hsame⟩ := ih
      refine ⟨hm.malloc, ?_⟩
      rw [hm.malloc_eq]
      exact hsame
  | @stack m s r q _ hq hr ih =>
      obtain ⟨hm, hsame⟩ := ih
      have hlen : 2 ≤ m.supply.length := by
        by_contra hshort
        rw [initKStack_short (by simpa using hshort)] at hr
        exact absurd hr (by simp)
      have hfree := m.supply_sublist.length_le
      rw [initKStack_enough (by simpa using hlen)] at hr
      have hmem : r.1 = m.taken 2 := congrArg Prod.fst (Option.some.inj hr).symm
      have hpfn : (r.2 0).pfn ≠ 0 := by
        refine initKStack_pfn (m := m) (t := (s q).kStackPt) ?_
        rw [initKStack_enough (by simpa using hlen)]
        exact hr
      have hshrinks : r.1.freeFrames.length + 2 ≤ m.freeFrames.length := by
        rw [hmem, Mem.taken_freeFrames, List.length_drop]
        omega
      refine ⟨hmem ▸ hm, .inr ?_⟩
      rcases hsame with ⟨hsame, hspace⟩ | ⟨hless, q', hq', hne⟩
      · refine ⟨hsame ▸ hshrinks, q, ?_, ?_⟩
        · rw [← hspace]
          exact hq
        · simpa using hpfn
      · refine ⟨hshrinks.trans ((Nat.le_add_right _ 2).trans hless), q', hq', ?_⟩
        by_cases hqq : q' = q
        · subst hqq
          exact absurd hq hne
        · simpa [hqq] using hne

namespace SameFrames

theorem refl (σ : Kernel) : SameFrames σ σ := ⟨rfl, fun _ => rfl, fun _ => rfl⟩

theorem trans (h : SameFrames σ τ) (h' : SameFrames τ σ') : SameFrames σ σ' :=
  ⟨h'.free.trans h.free, fun q => (h'.user q).trans (h.user q),
    fun q => (h'.stack q).trans (h.stack q)⟩

theorem stack_eq (h : SameFrames σ σ') (q : Pid) : σ'.stack q = σ.stack q := by
  rw [Kernel.stack, h.stack q]
  rfl

theorem userFrames_eq (h : SameFrames σ σ') (q : Pid) :
    (σ'.space q).userFrames = (σ.space q).userFrames := by
  unfold Space.userFrames Space.validPages
  rw [h.user q]

theorem stackFrames_eq (h : SameFrames σ σ') (q : Pid) :
    (σ'.space q).stackFrames = (σ.space q).stackFrames := by
  unfold Space.stackFrames
  rw [h.stack q]

theorem of_refill (h : Refill (σ.mem, σ.space) (σ'.mem, σ'.space)) (hstill : σ.mem.Still)
    (hnew : ∀ q, σ.stack q = 0 → σ'.stack q = 0) : SameFrames σ σ' := by
  rcases (Refill.still h hstill).2 with ⟨hfree, hspace⟩ | ⟨-, q, hq, hne⟩
  · have hsame : ∀ q, σ'.space q = σ.space q := fun q => congrFun hspace q
    exact ⟨hfree, fun q => by rw [hsame q], fun q => by rw [hsame q]⟩
  · exact absurd (hnew q hq) hne

end SameFrames

/-- Scheduling that makes no kernel stack leaves the frames as they are, and the child has its
kernel stack from the Fork. -/
theorem Undisturbed.sameFrames (h : Undisturbed c σ l σ') (hs : Steps σ l σ')
    (hc : σ.stack c ≠ 0) : SameFrames σ σ' := by
  obtain ⟨hstill, ⟨hsched, hnew⟩ | hsame⟩ := h
  swap
  · exact hsame
  cases space_step hs with
  | refills hrefill =>
      have hall : ∀ q, σ.stack q = 0 → σ'.stack q = 0 := by
        intro q hq
        by_cases hqc : q = c
        · subst hqc
          exact absurd hq hc
        · exact hnew q hqc hq
      have hsame : SameFrames (σ.begin l) σ' := .of_refill hrefill hstill hall
      exact ⟨hsame.free, hsame.user, hsame.stack⟩
  | brk u p o τ hl hcall => exact absurd (hsched.1 _ hcall) (by simp)
  | fork u p o τ hl hcall => exact absurd (hsched.1 _ hcall) (by simp)
  | exec u p o τ hl hcall => exact absurd (hsched.1 _ hcall) (by simp)
  | exit p τ hp hτ hrefill hlive hx => exact absurd hsched hx
  | grow u p τ hl hv => exact absurd (hsched.2 _ hv) (by simp)

theorem run_sameFrames {tr : List (Move Kernel Label)} (h : Run step (Undisturbed c) σ tr σ')
    (hc : σ.stack c ≠ 0) : SameFrames σ σ' := by
  refine h.invariant (I := SameFrames σ) (.refl σ) ?_
  intro τ l τ' hsame hs hundisturbed
  refine hsame.trans (hundisturbed.sameFrames (step_cases hs) ?_)
  rw [hsame.stack_eq]
  exact hc

/-! ## What Exit gives back -/

theorem sysFork_live (h : σ.sysFork p = some (o, σ')) : σ.live ⊆ σ'.live := by
  have hchild : ∀ τ : Kernel, τ.live = σ.live ++ [σ.nextPid] → σ.live ⊆ τ.live := by
    intro τ hτ
    rw [hτ]
    exact List.subset_append_left _ _
  unfold sysFork at h
  dsimp only at h
  split at h
  swap
  · obtain ⟨-, rfl⟩ := Prod.mk.inj (Option.some.inj h)
    exact List.Subset.refl _
  split at h
  · exact absurd h (by simp)
  split at h
  swap
  · obtain ⟨-, rfl⟩ := Prod.mk.inj (Option.some.inj h)
    exact hchild _ rfl
  obtain ⟨τ, hτ, h⟩ := Option.map_eq_some_iff.1 h
  obtain ⟨r, -, rfl⟩ := Option.map_eq_some_iff.1 hτ
  split at h
  · obtain ⟨-, rfl⟩ := Prod.mk.inj h
    exact hchild _ rfl
  · obtain ⟨-, rfl⟩ := Prod.mk.inj h
    exact hchild _ rfl

/-- A process that is no longer alive after a step has made it an Exit of its own. -/
theorem Steps.exits (h : Steps σ l σ') (hlive : c ∈ σ.live) (hgone : c ∉ σ'.live) :
    ∃ u status o τ, ((σ.begin l).enter u).sysExit c status = some (o, τ) ∧ σ' = finish (o, τ) := by
  have hquiet : ∀ {vs : List View}, Touches vs (σ.begin l) σ' → View.pids ∉ vs → False := by
    intro vs ht hvs
    have hsame := (ht.same .pids hvs).2
    rw [hsame] at hgone
    exact hgone hlive
  have henter : ∀ u, Touches [.registers] (σ.begin l) ((σ.begin l).enter u) := fun u =>
    .registers ..
  have hexit : ∀ {u : UserContext} {q : Pid} {status : Word} {o : Outcome} {τ : Kernel},
      ((σ.begin l).enter u).sysExit q status = some (o, τ) → c ∉ (finish (o, τ)).live →
        c = q := by
    intro u q status o τ hs hτ
    have hfinish := ((finish_touches o τ).same .pids (by simp)).2
    rw [hfinish] at hτ
    by_contra hne
    rcases sysExit_space hs with ⟨-, hl⟩ | ⟨-, -, -, hl⟩
    · rw [hl] at hτ
      exact hτ hlive
    · rw [hl] at hτ
      exact hτ ((List.mem_erase_of_ne hne).2 hlive)
  cases h with
  | store hl hu h => exact (hquiet (copyOut_touches h) (by simp)).elim
  | @call u p k o τ hl hu hv hp hk h =>
      have hend := (henter u).seq ((sysCall_touches h).seq (finish_touches o τ))
      cases k with
      | fork =>
          have hfinish := ((finish_touches o τ).same .pids (by simp)).2
          rw [hfinish] at hgone
          exact absurd (sysFork_live h hlive) hgone
      | exit =>
          obtain rfl := hexit h hgone
          exact ⟨u, _, o, τ, h, rfl⟩
      | _ => exact (hquiet hend (by simp [callViews])).elim
  | @clock u τ hl hu hv h =>
      exact (hquiet ((henter u).seq (trapClockHdl_touches h)) (by simp)).elim
  | @abort u p o τ hl hu hv hp h =>
      obtain rfl := hexit h hgone
      exact ⟨u, abortStatus, o, τ, h, rfl⟩
  | @grow u p τ hl hu hv hp hfit h =>
      exact (hquiet ((henter u).seq ((growUserStack_touches h).seq (returnUser_touches τ)))
        (by simp)).elim
  | @receive u τ hl hu hv h =>
      exact (hquiet ((henter u).seq ((trapTtyReceiveHdl_touches h).seq
        (returnUser_touches τ))) (by simp)).elim
  | @transmit u τ hl hu hv h =>
      exact (hquiet ((henter u).seq ((trapTtyTransmitHdl_touches h).seq
        (returnUser_touches τ))) (by simp)).elim
  | @disk u hl hu hv =>
      exact (hquiet ((henter u).seq (returnUser_touches _)) (by simp)).elim
  | @resume p o τ hl hu hp h =>
      have hrestore : Touches [.registers] (σ.begin l) ((σ.begin l).restore p) := .registers ..
      have hend := hrestore.seq ((resumeCall_touches h).seq (finish_touches o τ))
      refine (hquiet hend ?_).elim
      cases (σ.pcb p).kctxt <;> simp [resumeViews]

theorem insertDeadList_mem {ppid : Pid} {status : Word}
    (h : (σ.insertDeadList ppid p status).1 = 0) :
    (σ.insertDeadList ppid p status).2.mem = σ.mem.afterMallocs 2 ∧
      (σ.insertDeadList ppid p status).2.space = σ.space := by
  obtain ⟨hrecord, hnode⟩ := (insertDeadList_fst σ ppid status).1 h
  have hrun : (σ.insertDeadList ppid p status).2.mem =
      (listInsert σ.deadList (σ.deadList.length + 1) (some ⟨ppid, p, status⟩) σ.mem.malloc.2).2.2 ∧
        (σ.insertDeadList ppid p status).2.space = σ.space := by
    unfold insertDeadList
    dsimp only
    rw [if_pos (show σ.malloc.1.ok = true from hrecord)]
    exact ⟨rfl, rfl⟩
  refine ⟨hrun.1.trans ?_, hrun.2⟩
  rw [listInsert_last, if_pos hnode]
  rfl

/-- Telling the parent takes a record and a list node, unless there is no parent. -/
theorem tellParent_mem {status : Word} (h : σ.tellParent p status = some (0, τ)) :
    τ.mem = σ.mem.afterMallocs (if (σ.family p).ppid = -1 then 0 else 2) ∧ τ.space = σ.space := by
  unfold tellParent at h
  dsimp only at h
  split at h
  · rename_i hroot
    obtain ⟨-, rfl⟩ := Prod.mk.inj (Option.some.inj h)
    rw [if_pos hroot]
    exact ⟨rfl, rfl⟩
  rename_i hparent
  rw [if_neg hparent]
  split at h
  · obtain ⟨hrc, -⟩ := Prod.mk.inj (Option.some.inj h)
    exact absurd hrc (by decide)
  · rename_i hrc
    obtain ⟨p1, -, h⟩ := Option.map_eq_some_iff.1 h
    obtain ⟨-, rfl⟩ := Prod.mk.inj h
    exact insertDeadList_mem (not_not.1 hrc)

/-- An Exit that goes through gives the frames back when it has told the parent; what comes after
that calls `malloc` and makes kernel stacks. -/
theorem sysExit_frees {status : Word} (h : σ.sysExit c status = some (o, σ'))
    (hlive : c ∈ σ.live) (hgone : c ∉ σ'.live) : ∃ τ : Kernel,
      τ.mem = σ.mem.afterMallocs (σ.deathMallocs c) ∧ τ.space = σ.space ∧
        Refill ((τ.freeSpace c).mem, (τ.freeSpace c).space) (σ'.mem, σ'.space) := by
  unfold sysExit at h
  obtain ⟨family, hfamily, h⟩ := Option.bind_eq_some_iff.1 h
  obtain ⟨⟨rc, τ⟩, hτ, h⟩ := Option.bind_eq_some_iff.1 h
  have htell := (setFamily_touches σ family).trans (tellParent_touches hτ)
  split at h
  · obtain ⟨-, rfl⟩ := Prod.mk.inj (Option.some.inj h)
    have hsame := (htell.same .pids (by simp)).2
    rw [hsame] at hgone
    exact absurd hlive hgone
  rename_i hzero
  obtain rfl : rc = 0 := not_not.1 hzero
  obtain ⟨hmem, hspace⟩ := tellParent_mem hτ
  have hppid : family c = σ.bereaved c c := orphan_eq hfamily c
  have hwake := wakeParent_touches (τ.freeSpace c) (τ.family c).ppid
  have hblock := block_touches (v := [.queues, .contexts, .users]) (by simp)
    (fun _ _ _ _ h => .ret (.refl _ _) h) h
  refine ⟨τ, ?_, hspace, (hwake.same .frames (by simp)).trans (hblock.same .frames (by simp))⟩
  rw [hmem, deathMallocs, ← hppid]

theorem freeSpace_frames (σ : Kernel) (c : Pid) : (σ.freeSpace c).mem =
    ((σ.space c).userFrames ++ (σ.space c).stackFrames).foldl Mem.freeFrame σ.mem := by
  unfold freeSpace
  dsimp only
  rw [freePages_mem (nodup_pages_up 0 2), freePages_mem nodup_userPages, List.foldl_append]
  rfl

/-- What Exit leaves of the tables of its process. -/
theorem freeSpace_invalid (σ : Kernel) (c : Pid) :
    (∀ i, inTable i → (((σ.freeSpace c).space c).uPageTable i).valid = false) ∧
      ∀ i ∈ pages 0 1 2, (((σ.freeSpace c).space c).kStackPt i).valid = false := by
  have hself : (σ.freeSpace c).space c = { σ.space c with
      uPageTable := (freePages userPages σ.mem (σ.space c).uPageTable).2
      kStackPt := (freePages (pages 0 1 2)
        (freePages userPages σ.mem (σ.space c).uPageTable).1 (σ.space c).kStackPt).2 } :=
    Function.update_self ..
  constructor
  · intro i hi
    rw [hself]
    dsimp only
    rw [freePages_table, if_pos (inTable_userPages.2 hi), Pte.freed_valid]
  · intro i hi
    rw [hself]
    dsimp only
    rw [freePages_table, if_pos hi, Pte.freed_valid]

/-- The Exit of a process that has a kernel stack gives all its frames back if and only if there
is a list node for each. -/
theorem exit_restores {u : UserContext} {status : Word} (hl : l.Still)
    (h : ((σ.begin l).enter u).sysExit c status = some (o, τ)) (hlive : c ∈ σ.live)
    (hgone : c ∉ τ.live) (hc : σ.stack c ≠ 0)
    (hnew : ∀ q, q ≠ c → σ.stack q = 0 → τ.stack q = 0)
    (hlen : (σ.space c).stackFrames.length = 2) :
    (τ.mem.freeFrames.Perm ((σ.space c).userFrames ++ (σ.space c).stackFrames ++
        σ.mem.freeFrames) ↔ σ.NodesFit l c) ∧
      (∀ i, inTable i → ((τ.space c).uPageTable i).valid = false) ∧
      (∀ i ∈ pages 0 1 2, ((τ.space c).kStackPt i).valid = false) ∧
      ∀ q, q ≠ c → (τ.space q).uPageTable = (σ.space q).uPageTable ∧
        (τ.space q).kStackPt = (σ.space q).kStackPt := by
  obtain ⟨ρ, hmem, hspace, hrefill⟩ := sysExit_frees h hlive hgone
  have hbegin : (σ.begin l).mem.Still := hl
  have hρ : ρ.mem.Still ∧ ρ.mem.freeFrames = σ.mem.freeFrames := by
    rw [hmem]
    exact hbegin.afterMallocs _
  have hρspace : ρ.space = σ.space := hspace
  have hframes := freeSpace_frames ρ c
  rw [hρspace] at hframes
  have hsame : SameFrames (ρ.freeSpace c) τ := by
    refine .of_refill hrefill ?_ fun q hq => ?_
    · rw [hframes]
      exact hρ.1.foldl_freeFrame _
    · rw [freeSpace_stack, stack, hρspace] at hq
      by_cases hqc : q = c
      · subst hqc
        exact absurd hq hc
      · exact hnew q hqc hq
  obtain ⟨huser, hstack⟩ := freeSpace_invalid ρ c
  refine ⟨?_, fun i hi => ?_, fun i hi => ?_, fun q hq => ?_⟩
  · have hnodes : (((σ.space c).userFrames ++ (σ.space c).stackFrames).foldl Mem.freeFrame
        ρ.mem).freeFrames.Perm (_ ++ ρ.mem.freeFrames) ↔ ∀ i < _, ρ.mem.mallocOk i = true :=
      hρ.1.freeFrames_perm_iff
    rw [← hframes, ← hsame.free, hρ.2, hmem] at hnodes
    rw [hnodes, List.length_append, hlen, Space.userFrames, List.length_map]
    simp only [Mem.afterMallocs_mallocOk]
    rfl
  · rw [hsame.user c]
    exact huser i hi
  · rw [hsame.stack c]
    exact hstack i hi
  · have hother : (ρ.freeSpace c).space q = σ.space q := by
      rw [← hρspace]
      exact Function.update_of_ne hq ..
    rw [hsame.user q, hsame.stack q, hother]
    exact ⟨rfl, rfl⟩

/-! ## Fork and Exit -/

/-- When a process has forked successfully and the child exits later, after steps that neither
take nor free frames, the frames are as before if and only if there was a list node for each frame
that the child had. -/
theorem fork_exit_iff {σ₀ σ₁ σ₂ σ₃ : Kernel} {l₀ l₁ : Label} {tr : List (Move Kernel Label)}
    (hp : p < σ₀.nextPid) (hactive : σ₀.activeProc = some p) (hcall : l₀.call = some .fork)
    (hl₀ : l₀.Still) (hfork : σ₀.step l₀ = some σ₁) (hret : σ₀.outcome l₀ = some (.ret c))
    (hc : c ≠ error) (hrun : Run step (Undisturbed c) σ₁ tr σ₂) (hlive : c ∈ σ₂.live)
    (hl₁ : l₁.Still) (hexit : σ₂.step l₁ = some σ₃) (hgone : c ∉ σ₃.live)
    (hnew : ∀ q, q ≠ c → σ₂.stack q = 0 → σ₃.stack q = 0) :
    Restored σ₀ σ₃ p c ↔ σ₂.NodesFit l₁ c := by
  -- the Fork
  have htakes : ForkTakes σ₀ σ₁ c ∧ p ≠ c := by
    obtain ⟨u, p', o, τ, -, -, hp', h, rfl, hout⟩ := (step_cases hfork).of_call hcall
    obtain rfl := Option.some.inj (hactive.symm.trans hp')
    obtain rfl := Option.some.inj (hret.symm.trans hout)
    obtain ⟨ρ, hforked, hframes, ho, rfl⟩ := sysFork_succeeds (σ := (σ₀.begin l₀).enter u) hp h
      (fun ho => hc (Outcome.ret.inj ho))
    have hpid : c = σ₀.nextPid := Outcome.ret.inj ho
    have htakes := hforked.takes hframes hl₀
    rw [show ((σ₀.begin l₀).enter u).nextPid = c from hpid.symm] at htakes ⊢
    refine ⟨⟨htakes.frames, htakes.length, htakes.stack, htakes.others⟩, ?_⟩
    rw [hpid]
    exact ne_of_lt hp
  obtain ⟨htakes, hpc⟩ := htakes
  -- what comes in between
  have hsame := run_sameFrames hrun htakes.stack
  -- the Exit
  obtain ⟨u, status, o, τ, h, rfl⟩ := (step_cases hexit).exits hlive hgone
  have hfinish : (finish (o, τ)).mem = τ.mem ∧ (finish (o, τ)).space = τ.space ∧
      (finish (o, τ)).live = τ.live :=
    ⟨finish_mem o τ, finish_space o τ, ((finish_touches o τ).same .pids (by simp)).2⟩
  obtain ⟨hmem, hspace, hlive'⟩ := hfinish
  rw [hlive'] at hgone
  have hstack : σ₂.stack c ≠ 0 := by
    rw [hsame.stack_eq]
    exact htakes.stack
  have hnew' : ∀ q, q ≠ c → σ₂.stack q = 0 → τ.stack q = 0 := by
    intro q hq hq₀
    have hq' := hnew q hq hq₀
    rw [stack, hspace] at hq'
    exact hq'
  have hlen : (σ₂.space c).stackFrames.length = 2 := by
    rw [hsame.stackFrames_eq]
    exact htakes.length
  obtain ⟨hnodes, huser, hkernel, hothers⟩ := exit_restores hl₁ h hlive hgone hstack hnew' hlen
  rw [hsame.userFrames_eq, hsame.stackFrames_eq, hsame.free, htakes.frames.congr_right] at hnodes
  rw [← hnodes]
  constructor
  · intro hrestored
    have hfree := hrestored.free
    rw [hmem] at hfree
    exact hfree
  · intro hfree
    constructor
    · rw [hmem]
      exact hfree
    · rw [hspace]
      exact huser
    · rw [hspace]
      exact hkernel
    · rw [hspace, (hothers p hpc).1, (hothers p hpc).2, hsame.user p, hsame.stack p,
        htakes.others p hpc]
      exact ⟨rfl, rfl⟩

/-! ## A small machine -/

/-- A condition on a step that can be evaluated: it is one of scheduling, and there are as many
free frames as before. -/
def Quiet (σ : Kernel) (l : Label) (σ' : Kernel) : Prop :=
  (∀ a ∈ l.mallocs, a.grow = []) ∧ l.Scheduling ∧
    σ'.mem.freeFrames.length = σ.mem.freeFrames.length

instance (σ σ' : Kernel) (l : Label) : Decidable (Quiet σ l σ') :=
  inferInstanceAs (Decidable (_ ∧ _))

instance (σ : Kernel) (l : Label) (c : Pid) : Decidable (σ.NodesFit l c) :=
  inferInstanceAs (Decidable (∀ i < _, _))

theorem Quiet.undisturbed (h : Quiet σ l σ') (hs : Steps σ l σ') (c : Pid) :
    Undisturbed c σ l σ' := by
  obtain ⟨hstill, hsched, hlen⟩ := h
  refine ⟨hstill, .inl ⟨hsched, fun q _ hq => ?_⟩⟩
  cases space_step hs with
  | refills hrefill =>
      rcases (Refill.still hrefill hstill).2 with ⟨-, hspace⟩ | ⟨hless, -⟩
      · have hsame : σ'.space = σ.space := hspace
        rw [stack, hsame]
        exact hq
      · change σ'.mem.freeFrames.length + 2 ≤ σ.mem.freeFrames.length at hless
        omega
  | brk u p o τ hl hcall => exact absurd (hsched.1 _ hcall) (by simp)
  | fork u p o τ hl hcall => exact absurd (hsched.1 _ hcall) (by simp)
  | exec u p o τ hl hcall => exact absurd (hsched.1 _ hcall) (by simp)
  | exit p τ hp hτ hrefill hlive hx => exact absurd hsched hx
  | grow u p τ hl hv => exact absurd (hsched.2 _ hv) (by simp)

/-- An Exit after which there are too many free frames makes no kernel stack. -/
theorem exit_no_stack (hs : Steps σ l σ') (hl : l.Still) (hlive : c ∈ σ.live)
    (hgone : c ∉ σ'.live) (hlen : (σ.space c).userFrames.length +
      (σ.space c).stackFrames.length + σ.mem.freeFrames.length < σ'.mem.freeFrames.length + 2)
    (q : Pid) (hq : σ.stack q = 0) : σ'.stack q = 0 := by
  obtain ⟨u, status, o, τ, h, rfl⟩ := hs.exits hlive hgone
  rw [((finish_touches o τ).same .pids (by simp)).2] at hgone
  obtain ⟨ρ, hmem, hspace, hrefill⟩ := sysExit_frees h hlive hgone
  have hbegin : (σ.begin l).mem.Still := hl
  have hρ : ρ.mem.Still ∧ ρ.mem.freeFrames = σ.mem.freeFrames := by
    rw [hmem]
    exact hbegin.afterMallocs _
  have hρspace : ρ.space = σ.space := hspace
  have hframes := freeSpace_frames ρ c
  rw [hρspace] at hframes
  have hstill : (ρ.freeSpace c).mem.Still := by
    rw [hframes]
    exact hρ.1.foldl_freeFrame _
  have hle : (ρ.freeSpace c).mem.freeFrames.length ≤ (σ.space c).userFrames.length +
      (σ.space c).stackFrames.length + σ.mem.freeFrames.length := by
    rw [hframes, ← List.length_append, ← hρ.2]
    exact hρ.1.length_freeFrames_le _
  rw [finish_mem] at hlen
  rcases (Refill.still hrefill hstill).2 with ⟨-, hsame⟩ | ⟨hless, -⟩
  · have hτ : τ.space = (ρ.freeSpace c).space := hsame
    rw [stack, finish_space, hτ]
    change (ρ.freeSpace c).stack q = 0
    rw [freeSpace_stack, stack, hρspace]
    exact hq
  · change τ.mem.freeFrames.length + 2 ≤ (ρ.freeSpace c).mem.freeFrames.length at hless
    omega

/-- The Exit of the child, with the answers of `malloc`. -/
def childExit (mallocs : List Malloc) : Label := { smallCall .exit 0 0 0 with mallocs := mallocs }

/-- What the runs below have in common: init forks, the clock lets the child run, and the child
exits, whatever `malloc` answers. -/
structure ForkExitRun (mallocs : List Malloc) (σ₀ σ₁ σ₂ σ₃ : Kernel)
    (tr : List (Move Kernel Label)) : Prop where
  start : kernelStart smallBoot = some σ₀
  fork : σ₀.step (smallCall .fork 0 0 0) = some σ₁
  ret : σ₀.outcome (smallCall .fork 0 0 0) = some (.ret 2)
  parent : σ₀.activeProc = some 0 ∧ 0 < σ₀.nextPid
  between : Run step (Undisturbed 2) σ₁ tr σ₂
  exit : σ₂.step (childExit mallocs) = some σ₃
  dies : 2 ∈ σ₂.live ∧ 2 ∉ σ₃.live
  noStack : ∀ q, q ≠ 2 → σ₂.stack q = 0 → σ₃.stack q = 0

/-- The run, as far as it can be evaluated. -/
def evalForkExit (mallocs : List Malloc) (P : Kernel → Kernel → Kernel → Bool) : Option Bool :=
  (kernelStart smallBoot).bind fun σ₀ =>
    (σ₀.step (smallCall .fork 0 0 0)).bind fun σ₁ =>
      (exec step Quiet σ₁ [clockTick, resumption]).bind fun σ₂ =>
        (σ₂.step (childExit mallocs)).map fun σ₃ =>
          decide (σ₀.outcome (smallCall .fork 0 0 0) = some (.ret 2) ∧
            (σ₀.activeProc = some 0 ∧ 0 < σ₀.nextPid) ∧ (2 ∈ σ₂.live ∧ 2 ∉ σ₃.live) ∧
            (σ₂.space 2).userFrames.length + (σ₂.space 2).stackFrames.length +
              σ₂.mem.freeFrames.length < σ₃.mem.freeFrames.length + 2) && P σ₀ σ₂ σ₃

theorem evalForkExit_run {mallocs : List Malloc} {P : Kernel → Kernel → Kernel → Bool}
    (hstill : ∀ a ∈ mallocs, a.grow = []) (h : evalForkExit mallocs P = some true) :
    ∃ σ₀ σ₁ σ₂ σ₃ tr, ForkExitRun mallocs σ₀ σ₁ σ₂ σ₃ tr ∧ P σ₀ σ₂ σ₃ = true := by
  obtain ⟨σ₀, h₀, h⟩ := Option.bind_eq_some_iff.1 h
  obtain ⟨σ₁, h₁, h⟩ := Option.bind_eq_some_iff.1 h
  obtain ⟨σ₂, h₂, h⟩ := Option.bind_eq_some_iff.1 h
  obtain ⟨σ₃, h₃, h⟩ := Option.map_eq_some_iff.1 h
  obtain ⟨hfacts, hP⟩ := Bool.and_eq_true_iff.1 h
  obtain ⟨hret, hparent, hdies, hlen⟩ := of_decide_eq_true hfacts
  obtain ⟨tr, hrun, -⟩ := exec_run h₂
  refine ⟨σ₀, σ₁, σ₂, σ₃, tr, ⟨h₀, h₁, hret, hparent, ?_, h₃, hdies, fun q _ => ?_⟩, hP⟩
  · exact hrun.mono fun σ l σ' hs hq => hq.undisturbed (step_cases hs) 2
  · exact exit_no_stack (step_cases h₃) hstill hdies.1 hdies.2 hlen q

/-- The theorem on the run with memory for all list nodes. -/
theorem fork_exit_iff_small : ∃ σ₀ σ₁ σ₂ σ₃ tr, ForkExitRun [] σ₀ σ₁ σ₂ σ₃ tr ∧
    Restored σ₀ σ₃ 0 2 := by
  have heval : evalForkExit [] (fun _ σ₂ _ => decide (σ₂.NodesFit (childExit []) 2)) =
      some true := by
    decide +kernel
  obtain ⟨σ₀, σ₁, σ₂, σ₃, tr, h, hfit⟩ := evalForkExit_run (by simp) heval
  refine ⟨σ₀, σ₁, σ₂, σ₃, tr, h, ?_⟩
  exact (fork_exit_iff h.parent.2 h.parent.1 rfl (by simp [Label.Still, smallCall]) h.fork h.ret
    (by decide) h.between h.dies.1 (by simp [Label.Still, childExit]) h.exit h.dies.2
    h.noStack).2 (of_decide_eq_true hfit)

/-- The answers of a `malloc` that runs out of memory after the record of the death and its list
node. -/
def noNode : List Malloc := [{}, {}, { ok := false }]

/-- Without memory for the first list node Exit loses a frame. -/
theorem exit_loses_frame : ∃ σ₀ σ₁ σ₂ σ₃ tr, ForkExitRun noNode σ₀ σ₁ σ₂ σ₃ tr ∧
    σ₃.mem.freeFrames.length + 1 = σ₀.mem.freeFrames.length ∧ ¬Restored σ₀ σ₃ 0 2 := by
  have heval : evalForkExit noNode (fun σ₀ _ σ₃ =>
      decide (σ₃.mem.freeFrames.length + 1 = σ₀.mem.freeFrames.length)) = some true := by
    decide +kernel
  obtain ⟨σ₀, σ₁, σ₂, σ₃, tr, h, hP⟩ := evalForkExit_run (by decide) heval
  have hlen := of_decide_eq_true hP
  refine ⟨σ₀, σ₁, σ₂, σ₃, tr, h, hlen, fun hrestored => ?_⟩
  have hsame := hrestored.free.length_eq
  omega

end Kernel

end Yalnix
