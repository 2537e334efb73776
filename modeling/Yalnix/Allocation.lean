import Yalnix.Footprint.Suspend

/-!
# Steps in which every allocation succeeds

`AllOk m` says that no call of `malloc` still to come in the step fails. Every
operation keeps it, since an answer of `malloc` is used up and never changed;
under it, `list_insert` behind the last element is an append. `refused` grows
whenever `grab_a_frame` fails, so a step that leaves it as it was got every
frame that it asked for.
-/

namespace Yalnix

/-- Every answer of `malloc` left for this step is a block. -/
def Mem.AllOk (m : Mem) : Prop := ∀ a ∈ m.mallocs, a.ok = true

/-- The memory after `n` calls of `malloc`. -/
def Mem.afterMallocs (m : Mem) : ℕ → Mem
  | 0 => m
  | n + 1 => m.malloc.2.afterMallocs n

/-- The call of `malloc` that `n` others come before yields a block. -/
def Mem.mallocOk (m : Mem) (n : ℕ) : Bool := (m.afterMallocs n).malloc.1.ok

theorem Mem.afterMallocs_mallocOk (m : Mem) (n i : ℕ) :
    (m.afterMallocs n).mallocOk i = m.mallocOk (n + i) := by
  induction n generalizing m with
  | zero => rw [Nat.zero_add]; rfl
  | succ n ih => rw [Nat.add_right_comm]; exact ih m.malloc.2

namespace Mem

/-! ## What uses up answers of `malloc` -/

theorem grabAFrame_mallocs (m : Mem) : m.grabAFrame.2.mallocs = m.mallocs := by
  unfold grabAFrame
  cases m.freeFrames <;> rfl

theorem mapKernelPages_mallocs (n : ℕ) (i : Int) (m : Mem) :
    (m.mapKernelPages n i).2.mallocs = m.mallocs := by
  induction n generalizing i m with
  | zero => rfl
  | succ n ih =>
      unfold mapKernelPages
      dsimp only
      split
      · exact grabAFrame_mallocs m
      · rw [ih]
        exact grabAFrame_mallocs m

theorem setKernelBrk_mallocs (m : Mem) (addr : Word) :
    (m.setKernelBrk addr).2.mallocs = m.mallocs := by
  unfold setKernelBrk
  split
  · dsimp only
    split <;> rfl
  split
  · split
    · rfl
    · dsimp only
      split
      · exact mapKernelPages_mallocs ..
      · exact mapKernelPages_mallocs ..
  · rfl

theorem malloc_mallocs (m : Mem) : m.malloc.2.mallocs = m.mallocs.tail := by
  unfold malloc
  cases h : m.mallocs with
  | nil => simpa using h
  | cons a as =>
      have hgrow : ∀ (l : List (BitVec 31)) (m : Mem),
          (l.foldl (fun m addr => (m.setKernelBrk (addr.setWidth 32)).2) m).mallocs =
            m.mallocs := by
        intro l
        induction l with
        | nil => exact fun _ => rfl
        | cons r l ih => exact fun m => (ih _).trans (setKernelBrk_mallocs m _)
      exact hgrow a.grow { m with mallocs := as }

theorem malloc_fst (m : Mem) : m.malloc.1 = m.mallocs.head?.getD default := by
  unfold malloc
  cases m.mallocs <;> rfl

/-- A call of `malloc` takes its answer from the list. -/
theorem mallocOk_eq (m : Mem) (n : ℕ) :
    m.mallocOk n = ((m.mallocs.drop n).head?.getD default).ok := by
  have hmallocs : (m.afterMallocs n).mallocs = m.mallocs.drop n := by
    induction n generalizing m with
    | zero => rfl
    | succ n ih =>
        refine (ih m.malloc.2).trans ?_
        rw [malloc_mallocs, List.drop_tail]
  rw [mallocOk, malloc_fst, hmallocs]

/-! ## What `grab_a_frame` refuses -/

theorem le_refused_grabAFrame (m : Mem) : m.refused ≤ m.grabAFrame.2.refused := by
  unfold grabAFrame
  cases m.freeFrames with
  | nil => exact Nat.le_succ _
  | cons f fs => exact Nat.le_add_right _ _

/-- A 0 that `grab_a_frame` returns is counted. -/
theorem refused_grabAFrame {m : Mem} (h : m.grabAFrame.1 = 0) :
    m.grabAFrame.2.refused = m.refused + 1 := by
  unfold grabAFrame at h ⊢
  cases hf : m.freeFrames with
  | nil => rfl
  | cons f fs =>
      rw [hf] at h
      simp [show f = 0 from h]

theorem le_refused_mapKernelPages (n : ℕ) (i : Int) (m : Mem) :
    m.refused ≤ (m.mapKernelPages n i).2.refused := by
  induction n generalizing i m with
  | zero => exact le_refl _
  | succ n ih =>
      unfold mapKernelPages
      dsimp only
      split
      · exact le_refused_grabAFrame m
      · refine (le_refused_grabAFrame m).trans (le_trans (le_of_eq ?_) (ih _ _))
        rfl

theorem le_refused_setKernelBrk (m : Mem) (addr : Word) :
    m.refused ≤ (m.setKernelBrk addr).2.refused := by
  unfold setKernelBrk
  split
  · dsimp only
    split <;> exact le_refl _
  split
  · split
    · exact le_refl _
    · dsimp only
      split
      · exact le_refused_mapKernelPages ..
      · exact le_refused_mapKernelPages ..
  · exact le_refl _

theorem le_refused_malloc (m : Mem) : m.refused ≤ m.malloc.2.refused := by
  unfold malloc
  cases m.mallocs with
  | nil => exact le_refl _
  | cons a as =>
      have hgrow : ∀ (l : List (BitVec 31)) (m : Mem), m.refused ≤
          (l.foldl (fun m addr => (m.setKernelBrk (addr.setWidth 32)).2) m).refused := by
        intro l
        induction l with
        | nil => exact fun _ => le_refl _
        | cons r l ih => exact fun m => (le_refused_setKernelBrk m _).trans (ih _)
      exact hgrow a.grow { m with mallocs := as }

theorem le_refused_initKStack {is : List Int} {m : Mem} {t : PageTable} {r : Mem × PageTable}
    (h : initKStack is m t = some r) : m.refused ≤ r.1.refused := by
  induction is generalizing m t with
  | nil =>
      obtain rfl := Option.some.inj h
      exact le_refl _
  | cons i is ih =>
      unfold initKStack at h
      dsimp only at h
      split at h
      · exact absurd h (by simp)
      · exact (le_refused_grabAFrame m).trans (ih h)

/-- Copying the pages of a process fails only when `grab_a_frame` does. -/
theorem refused_copyPages {parent : PageTable} {is : List Int} {m : Mem} {t : PageTable}
    {phys : ℕ → ℕ → Byte} (h : (copyPages parent is m t phys).1 = false) :
    m.refused < (copyPages parent is m t phys).2.1.refused := by
  induction is generalizing m t phys with
  | nil => simp [copyPages] at h
  | cons i is ih =>
      unfold copyPages at h ⊢
      by_cases hv : (parent i).valid
      · rw [if_pos hv] at h ⊢
        dsimp only at h ⊢
        by_cases h₀ : m.grabAFrame.1 = 0
        · rw [if_pos h₀, refused_grabAFrame h₀]
          exact Nat.lt_succ_self _
        · rw [if_neg h₀] at h ⊢
          exact (le_refused_grabAFrame m).trans_lt (ih h)
      · rw [if_neg hv] at h ⊢
        exact ih h

/-! ## Allocations that succeed -/

namespace AllOk

variable {m : Mem}

theorem ok (h : m.AllOk) : m.malloc.1.ok = true := by
  unfold Mem.malloc
  cases hm : m.mallocs with
  | nil => rfl
  | cons a as => exact h a (by simp [hm])

theorem malloc (h : m.AllOk) : m.malloc.2.AllOk := by
  intro a ha
  rw [malloc_mallocs] at ha
  exact h a (List.mem_of_mem_tail ha)

theorem mallocOk (h : m.AllOk) (n : ℕ) : m.mallocOk n = true := by
  rw [mallocOk_eq]
  cases hm : (m.mallocs.drop n).head? with
  | none => rfl
  | some a => exact h a (List.mem_of_mem_drop (List.mem_of_head? hm))

theorem of_mallocs {m' : Mem} (h : m.AllOk) (he : m'.mallocs = m.mallocs) : m'.AllOk := by
  unfold AllOk
  rw [he]
  exact h

theorem grabAFrame (h : m.AllOk) : m.grabAFrame.2.AllOk := h.of_mallocs (grabAFrame_mallocs m)

theorem freeFrame (h : m.AllOk) (pfn : ℕ) : (m.freeFrame pfn).AllOk := by
  unfold Mem.freeFrame
  dsimp only
  rw [if_pos h.ok]
  exact h.malloc

theorem freePages (h : m.AllOk) (is : List Int) (t : PageTable) :
    (freePages is m t).1.AllOk := by
  induction is generalizing m t with
  | nil => exact h
  | cons i is ih =>
      unfold Yalnix.freePages
      split
      · exact ih (h.freeFrame _) _
      · exact ih h t

theorem copyPages (h : m.AllOk) (parent : PageTable) (is : List Int) (t : PageTable)
    (phys : ℕ → ℕ → Byte) : (copyPages parent is m t phys).2.1.AllOk := by
  induction is generalizing m t phys with
  | nil => exact h
  | cons i is ih =>
      unfold Yalnix.copyPages
      split
      · dsimp only
        split
        · exact h.grabAFrame
        · exact ih h.grabAFrame _ _
      · exact ih h t phys

theorem initKStack (h : m.AllOk) {is : List Int} {t : PageTable} {r : Mem × PageTable}
    (hr : initKStack is m t = some r) : r.1.AllOk := by
  induction is generalizing m t with
  | nil =>
      obtain rfl := Option.some.inj hr
      exact h
  | cons i is ih =>
      unfold Yalnix.initKStack at hr
      dsimp only at hr
      split at hr
      · exact absurd hr (by simp)
      · exact ih h.grabAFrame hr

theorem grabPages (h : m.AllOk) {is : List Int} {t : PageTable} {r : Bool × Mem × PageTable}
    (hr : grabPages is m t = some r) : r.2.1.AllOk := by
  induction is generalizing m t with
  | nil =>
      obtain rfl := Option.some.inj hr
      exact h
  | cons i is ih =>
      unfold Yalnix.grabPages at hr
      dsimp only at hr
      split at hr
      · obtain rfl := Option.some.inj hr
        exact h.grabAFrame
      split at hr
      · exact ih h.grabAFrame hr
      · exact absurd hr (by simp)

theorem refill {x y : Mem × (Pid → Space)} (h : x.1.AllOk) (hr : Refill x y) : y.1.AllOk :=
  hr.induct (P := fun m _ => m.AllOk) h (fun _ _ h => h.malloc)
    fun _ _ _ _ h _ hr => h.initKStack hr

end AllOk

end Mem

/-- Insertion behind the last element, when the node can be had. -/
theorem listInsert_last_ok {α : Type} (l : List α) (data : α) {m : Mem} (h : m.AllOk) :
    listInsert l (l.length + 1) data m = (0, l ++ [data], m.malloc.2) := by
  rw [listInsert_last, if_pos h.ok]

/-- A call that leaves the frames alone leaves the answers to come good. -/
theorem Touches.allOk {vs : List View} {σ σ' : Kernel} (h : Touches vs σ σ')
    (hvs : View.frames ∉ vs) (hok : σ.mem.AllOk) : σ'.mem.AllOk :=
  Mem.AllOk.refill (x := (σ.mem, σ.space)) hok (h.same .frames hvs)

namespace Kernel

variable {σ : Kernel}

theorem readyInsert_ok (h : σ.mem.AllOk) (p : Pid) :
    σ.readyInsert p =
      (0, { σ with
        readyQueue := σ.readyQueue ++ [p]
        mem := σ.mem.malloc.2
        readied := σ.readied ++ [p] }) := by
  unfold readyInsert
  rw [listInsert_last_ok _ _ h]
  rfl

theorem waitInsert_ok (h : σ.mem.AllOk) (p : Pid) :
    σ.waitInsert p = (0, { σ with waitList := σ.waitList ++ [p], mem := σ.mem.malloc.2 }) := by
  unfold waitInsert
  rw [listInsert_last_ok _ _ h]

theorem ioInsert_ok (h : σ.mem.AllOk) (p : Pid) :
    σ.ioInsert p = (0, { σ with ioList := σ.ioList ++ [p], mem := σ.mem.malloc.2 }) := by
  unfold ioInsert
  rw [listInsert_last_ok _ _ h]

theorem insertDeadList_ok (h : σ.mem.AllOk) (ppid pid : Pid) (status : Word) :
    σ.insertDeadList ppid pid status = (0, { σ with
      deadList := σ.deadList ++ [some ⟨ppid, pid, status⟩], mem := σ.mem.malloc.2.malloc.2 }) := by
  unfold insertDeadList
  have hd : σ.malloc.2.mem.AllOk := h.malloc
  dsimp only
  rw [if_pos (show σ.malloc.1.ok = true from h.ok), listInsert_last_ok _ _ hd]
  rfl

theorem pipeWaitInsert_ok (h : σ.mem.AllOk) (a : ℕ) (q : Pid) :
    σ.pipeWaitInsert a q = { σ with
      mem := σ.mem.malloc.2
      pipes := σ.pipes.write a { σ.pipes.cell a with
        pipeWaitList := (σ.pipes.cell a).pipeWaitList ++ [q] } } := by
  unfold pipeWaitInsert
  dsimp only
  rw [listInsert_last_ok _ _ h]

theorem lockWaitInsert_ok (h : σ.mem.AllOk) (a : ℕ) (q : Pid) :
    σ.lockWaitInsert a q = { σ with
      mem := σ.mem.malloc.2
      locks := σ.locks.write a { σ.locks.cell a with
        lockWaitList := (σ.locks.cell a).lockWaitList ++ [q] } } := by
  unfold lockWaitInsert
  dsimp only
  rw [listInsert_last_ok _ _ h]

theorem cvarWaitInsert_ok (h : σ.mem.AllOk) (a : ℕ) (q : Pid) :
    σ.cvarWaitInsert a q = { σ with
      mem := σ.mem.malloc.2
      cvars := σ.cvars.write a { σ.cvars.cell a with
        cvarWaitList := (σ.cvars.cell a).cvarWaitList ++ [q] } } := by
  unfold cvarWaitInsert
  dsimp only
  rw [listInsert_last_ok _ _ h]

theorem semWaitInsert_ok (h : σ.mem.AllOk) (a : ℕ) (q : Pid) :
    σ.semWaitInsert a q = { σ with
      mem := σ.mem.malloc.2
      sems := σ.sems.write a { σ.sems.cell a with
        waiting := (σ.sems.cell a).waiting ++ [q] } } := by
  unfold semWaitInsert
  dsimp only
  rw [listInsert_last_ok _ _ h]

end Kernel

end Yalnix
