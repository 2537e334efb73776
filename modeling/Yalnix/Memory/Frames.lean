import Mathlib.Data.List.TakeWhile
import Yalnix.Allocation
import Yalnix.Library.Assign

/-!
# What the loops over pages leave

`supply m` is what `grab_a_frame` can return, call after call, before it first
returns 0. A loop that visits no more pages than that gives every page the next
of these frames; a longer one stops behind the last of them. Each loop of
`mem.c`'s callers gets one lemma for each of the two cases.
-/

namespace Yalnix

/-! ## Pages -/

@[simp] theorem length_pages (start step : Int) (n : ℕ) : (pages start step n).length = n := by
  induction n generalizing start with
  | zero => rfl
  | succ n ih => rw [pages, List.length_cons, ih]

theorem mem_pages_up {start i : Int} {n : ℕ} :
    i ∈ pages start 1 n ↔ start ≤ i ∧ i < start + n := by
  induction n generalizing start with
  | zero => simp [pages]
  | succ n ih =>
      rw [pages, List.mem_cons, ih]
      omega

theorem mem_pages_down {start i : Int} {n : ℕ} :
    i ∈ pages start (-1) n ↔ start - n < i ∧ i ≤ start := by
  induction n generalizing start with
  | zero => simp [pages]
  | succ n ih =>
      rw [pages, List.mem_cons, ih]
      omega

theorem nodup_pages_up (start : Int) (n : ℕ) : (pages start 1 n).Nodup := by
  induction n generalizing start with
  | zero => exact List.nodup_nil
  | succ n ih =>
      refine List.nodup_cons.2 ⟨?_, ih (start + 1)⟩
      rw [mem_pages_up]
      omega

theorem nodup_pages_down (start : Int) (n : ℕ) : (pages start (-1) n).Nodup := by
  induction n generalizing start with
  | zero => exact List.nodup_nil
  | succ n ih =>
      refine List.nodup_cons.2 ⟨?_, ih (start + -1)⟩
      rw [mem_pages_down]
      omega

theorem take_pages (start step : Int) (n k : ℕ) :
    (pages start step n).take k = pages start step (min k n) := by
  induction n generalizing start k with
  | zero => simp [pages]
  | succ n ih =>
      cases k with
      | zero => simp [pages]
      | succ k => rw [pages, List.take_succ_cons, ih, Nat.add_min_add_right, pages]

theorem inTable_userPages {i : Int} : i ∈ userPages ↔ inTable i := by
  rw [userPages, mem_pages_up, inTable, userPagetableSize]
  omega

theorem nodup_userPages : userPages.Nodup := nodup_pages_up 0 128

/-- Whether the pages up from `start` are entries of a user page table. -/
theorem inTable_pages_up {start : Int} {n : ℕ} (hn : 0 < n) :
    (∀ i ∈ pages start 1 n, inTable i) ↔ 0 ≤ start ∧ start + n ≤ userPagetableSize := by
  simp only [mem_pages_up, inTable, userPagetableSize]
  constructor
  · intro h
    have hfirst := h start (by omega)
    have hlast := h (start + n - 1) (by omega)
    omega
  · intro h i hi
    omega

/-! ## Frames that can be had -/

namespace Mem

/-- The frames that `grab_a_frame` returns before it fails. -/
def supply (m : Mem) : List ℕ := m.freeFrames.takeWhile (· ≠ 0)

/-- The memory after `n` calls of `grab_a_frame` that did not fail. -/
def taken (m : Mem) (n : ℕ) : Mem := { m with freeFrames := m.freeFrames.drop n }

variable {m : Mem} {f : ℕ} {fs : List ℕ}

@[simp] theorem taken_zero : m.taken 0 = m := rfl

@[simp] theorem taken_taken (j k : ℕ) : (m.taken j).taken k = m.taken (j + k) := by
  rw [taken, taken, taken, List.drop_drop]

@[simp] theorem taken_freeFrames (n : ℕ) : (m.taken n).freeFrames = m.freeFrames.drop n := rfl

@[simp] theorem taken_refused (n : ℕ) : (m.taken n).refused = m.refused := rfl

@[simp] theorem taken_mallocs (n : ℕ) : (m.taken n).mallocs = m.mallocs := rfl

theorem supply_sublist (m : Mem) : m.supply.Sublist m.freeFrames := List.takeWhile_sublist _

theorem supply_prefix (m : Mem) : m.supply <+: m.freeFrames := List.takeWhile_prefix _

theorem ne_zero_of_mem_supply (h : f ∈ m.supply) : f ≠ 0 := by
  simpa using List.mem_takeWhile_imp h

theorem grabAFrame_of_supply (h : m.supply = f :: fs) :
    f ≠ 0 ∧ m.grabAFrame = (f, m.taken 1) ∧ (m.taken 1).supply = fs := by
  have hf : f ≠ 0 := ne_zero_of_mem_supply (m := m) (by simp [h])
  unfold supply at h
  cases hm : m.freeFrames with
  | nil => simp [hm] at h
  | cons g gs =>
      have hg : g ≠ 0 := by
        rintro rfl
        simp [hm] at h
      rw [hm, List.takeWhile_cons_of_pos (by simpa using hg)] at h
      obtain ⟨rfl, hgs⟩ := List.cons.inj h
      refine ⟨hf, ?_, ?_⟩
      · unfold grabAFrame taken
        simp [hm, hg]
      · unfold supply taken
        simpa [hm] using hgs

theorem grabAFrame_of_supply_nil (h : m.supply = []) : m.grabAFrame.1 = 0 := by
  unfold supply at h
  unfold grabAFrame
  cases hm : m.freeFrames with
  | nil => rfl
  | cons g gs =>
      by_contra hg
      rw [hm, List.takeWhile_cons_of_pos (by simpa using hg)] at h
      exact absurd h (by simp)

theorem grabAFrame_freeFrames (m : Mem) : m.grabAFrame.2.freeFrames = m.freeFrames.tail := by
  unfold grabAFrame
  cases m.freeFrames <;> rfl

theorem supply_taken {n : ℕ} (h : n ≤ m.supply.length) : (m.taken n).supply = m.supply.drop n := by
  induction n generalizing m with
  | zero => rfl
  | succ n ih =>
      cases hs : m.supply with
      | nil => exact absurd h (by simp [hs])
      | cons f fs =>
          obtain ⟨-, -, hfs⟩ := grabAFrame_of_supply hs
          rw [Nat.add_comm, ← taken_taken, ih (by simpa [hs, hfs] using h), hfs]
          simp [Nat.add_comm 1]

/-- The frames that have been taken are the first ones of the supply. -/
theorem take_supply {n : ℕ} (h : n ≤ m.supply.length) : m.supply.take n = m.freeFrames.take n := by
  obtain ⟨rest, hrest⟩ := m.supply_prefix
  rw [← hrest, List.take_append_of_le_length h]

end Mem

/-- The entry of a page that may be read and written. -/
def Pte.rw (f : ℕ) : Pte := ⟨true, protRead ||| protWrite, f⟩

theorem assign_rw {t : PageTable} {is : List Int} {fs : List ℕ} {i : Int}
    (hlen : is.length ≤ fs.length) (h : i ∈ is) :
    ∃ f ∈ fs.take is.length, assign t is (fs.map Pte.rw) i = Pte.rw f := by
  have hfs : is.length ≤ (fs.map Pte.rw).length := by simpa using hlen
  have hmem := assign_mem (f := t) hfs h
  rw [← List.map_take, List.mem_map] at hmem
  obtain ⟨f, hf, he⟩ := hmem
  exact ⟨f, hf, he.symm⟩

/-! ## Loops that take a frame for each page -/

section Loops

variable {is : List Int} {m : Mem} {t : PageTable}

theorem grabPages_enough (h : is.length ≤ m.supply.length) :
    grabPages is m t =
      if ∀ i ∈ is, inTable i then
        some (true, m.taken is.length, assign t is (m.supply.map Pte.rw))
      else none := by
  induction is generalizing m t with
  | nil => simp [grabPages]
  | cons i is ih =>
      cases hs : m.supply with
      | nil => exact absurd h (by simp [hs])
      | cons f fs =>
          obtain ⟨hf, hgrab, hfs⟩ := Mem.grabAFrame_of_supply hs
          have hlen : is.length ≤ (m.taken 1).supply.length := by
            simpa [hs, hfs] using h
          rw [grabPages, hgrab]
          dsimp only
          rw [if_neg hf]
          by_cases hi : inTable i
          · rw [if_pos hi, ih hlen, hfs]
            simp [hi, Nat.add_comm 1, Pte.rw]
          · rw [if_neg hi, if_neg fun hall => hi (hall i List.mem_cons_self)]

theorem grabPages_short (h : m.supply.length < is.length) :
    grabPages is m t =
      if ∀ i ∈ is.take m.supply.length, inTable i then
        some (false, (m.taken m.supply.length).grabAFrame.2, assign t is (m.supply.map Pte.rw))
      else none := by
  induction is generalizing m t with
  | nil => exact absurd h (Nat.not_lt_zero _)
  | cons i is ih =>
      cases hs : m.supply with
      | nil =>
          rw [grabPages, if_pos (Mem.grabAFrame_of_supply_nil hs)]
          simp
      | cons f fs =>
          obtain ⟨hf, hgrab, hfs⟩ := Mem.grabAFrame_of_supply hs
          have hlen : (m.taken 1).supply.length < is.length := by
            simpa [hs, hfs] using h
          rw [grabPages, hgrab]
          dsimp only
          rw [if_neg hf]
          by_cases hi : inTable i
          · rw [if_pos hi, ih hlen, hfs]
            simp [hi, Nat.add_comm 1, Pte.rw]
          · rw [if_neg hi, if_neg fun hall => hi (hall i (by simp))]

/-- A loop that is not refused a frame has mapped all its pages. -/
theorem grabPages_cases {r : Bool × Mem × PageTable} (h : grabPages is m t = some r) :
    (is.length ≤ m.supply.length ∧ (∀ i ∈ is, inTable i) ∧
        r = (true, m.taken is.length, assign t is (m.supply.map Pte.rw))) ∨
      r.1 = false ∧ m.refused < r.2.1.refused := by
  by_cases hlen : is.length ≤ m.supply.length
  · rw [grabPages_enough hlen] at h
    split at h
    · exact Or.inl ⟨hlen, ‹_›, (Option.some.inj h).symm⟩
    · exact absurd h (by simp)
  · rw [grabPages_short (not_le.1 hlen)] at h
    split at h
    · obtain rfl := Option.some.inj h
      right
      have hnil : (m.taken m.supply.length).supply = [] := by
        rw [Mem.supply_taken le_rfl, List.drop_length]
      refine ⟨rfl, ?_⟩
      rw [Mem.refused_grabAFrame (Mem.grabAFrame_of_supply_nil hnil)]
      exact Nat.lt_succ_self _
    · exact absurd h (by simp)

/-- Two loops in a row, the second of which is left out if the first fails. -/
theorem grabPages_append (is js : List Int) (m : Mem) (t : PageTable) :
    grabPages (is ++ js) m t =
      (grabPages is m t).bind fun r => if r.1 then grabPages js r.2.1 r.2.2 else some r := by
  induction is generalizing m t with
  | nil => rfl
  | cons i is ih =>
      rw [List.cons_append, grabPages, grabPages]
      split
      · rfl
      · split
        · exact ih _ _
        · rfl

theorem le_refused_grabPages {r : Bool × Mem × PageTable} (h : grabPages is m t = some r) :
    m.refused ≤ r.2.1.refused := by
  rcases grabPages_cases h with ⟨-, -, rfl⟩ | ⟨-, hlt⟩
  · exact le_rfl
  · exact le_of_lt hlt

theorem growStack_enough (h : is.length ≤ m.supply.length) :
    growStack is m t =
      if ∀ i ∈ is, inTable i then
        some (m.taken is.length, assign t is (m.supply.map Pte.rw))
      else none := by
  induction is generalizing m t with
  | nil => simp [growStack]
  | cons i is ih =>
      cases hs : m.supply with
      | nil => exact absurd h (by simp [hs])
      | cons f fs =>
          obtain ⟨hf, hgrab, hfs⟩ := Mem.grabAFrame_of_supply hs
          have hlen : is.length ≤ (m.taken 1).supply.length := by
            simpa [hs, hfs] using h
          rw [growStack, hgrab]
          by_cases hi : inTable i
          · rw [if_pos hi, ih hlen, hfs]
            simp [hi, Nat.add_comm 1, Pte.rw, protRead, protWrite]
          · rw [if_neg hi, if_neg fun hall => hi (hall i List.mem_cons_self)]

theorem le_refused_growStack {r : Mem × PageTable} (h : growStack is m t = some r) :
    m.refused ≤ r.1.refused := by
  induction is generalizing m t with
  | nil =>
      obtain rfl := Option.some.inj h
      exact le_rfl
  | cons i is ih =>
      rw [growStack] at h
      split at h
      · exact (Mem.le_refused_grabAFrame m).trans (ih h)
      · exact absurd h (by simp)

/-- The loop of `trap_memory_hdl` takes what the list of free frames has to give, a frame 0
included. -/
theorem growStack_taken {r : Mem × PageTable} (h : growStack is m t = some r) :
    r.1.freeFrames = m.freeFrames.drop is.length ∧
      (is.length ≤ m.freeFrames.length → r.2 = assign t is (m.freeFrames.map Pte.rw)) := by
  induction is generalizing m t with
  | nil =>
      obtain rfl := Option.some.inj h
      exact ⟨rfl, fun _ => rfl⟩
  | cons i is ih =>
      rw [growStack] at h
      split at h
      swap
      · exact absurd h (by simp)
      obtain ⟨hfree, htable⟩ := ih h
      rw [Mem.grabAFrame_freeFrames] at hfree htable
      constructor
      · rw [hfree, List.length_cons, List.drop_tail]
      · intro hlen
        cases hf : m.freeFrames with
        | nil => simp [hf] at hlen
        | cons f fs =>
            have hgrab : m.grabAFrame.1 = f := by simp [Mem.grabAFrame, hf]
            rw [hf] at hlen htable
            rw [htable (by simpa using hlen), hgrab]
            rfl

theorem growStack_short {r : Mem × PageTable} (h : m.supply.length < is.length)
    (hr : growStack is m t = some r) : m.refused < r.1.refused := by
  induction is generalizing m t with
  | nil => exact absurd h (Nat.not_lt_zero _)
  | cons i is ih =>
      rw [growStack] at hr
      split at hr
      swap
      · exact absurd hr (by simp)
      cases hs : m.supply with
      | nil =>
          have hlt := Mem.refused_grabAFrame (Mem.grabAFrame_of_supply_nil hs)
          have hle := le_refused_growStack hr
          omega
      | cons f fs =>
          obtain ⟨-, hgrab, hfs⟩ := Mem.grabAFrame_of_supply hs
          have hlen : m.grabAFrame.2.supply.length < is.length := by
            rw [hgrab, hfs]
            simpa [hs] using h
          exact (Mem.le_refused_grabAFrame m).trans_lt (ih hlen hr)

theorem initKStack_enough (h : is.length ≤ m.supply.length) :
    initKStack is m t = some (m.taken is.length, assign t is (m.supply.map Pte.rw)) := by
  induction is generalizing m t with
  | nil => simp [initKStack]
  | cons i is ih =>
      cases hs : m.supply with
      | nil => exact absurd h (by simp [hs])
      | cons f fs =>
          obtain ⟨hf, hgrab, hfs⟩ := Mem.grabAFrame_of_supply hs
          have hlen : is.length ≤ (m.taken 1).supply.length := by
            simpa [hs, hfs] using h
          rw [initKStack, hgrab]
          dsimp only
          rw [if_neg hf, ih hlen, hfs]
          simp [Nat.add_comm 1, Pte.rw]

theorem initKStack_short (h : m.supply.length < is.length) : initKStack is m t = none := by
  induction is generalizing m t with
  | nil => exact absurd h (Nat.not_lt_zero _)
  | cons i is ih =>
      rw [initKStack]
      cases hs : m.supply with
      | nil => rw [if_pos (Mem.grabAFrame_of_supply_nil hs)]
      | cons f fs =>
          obtain ⟨hf, hgrab, hfs⟩ := Mem.grabAFrame_of_supply hs
          rw [hgrab, if_neg hf]
          apply ih
          simpa [hs, hfs] using h

/-- The entry of a copied page, in a frame of its own. -/
def copiedEntry (parent : PageTable) (i : Int) (f : ℕ) : Pte := ⟨true, (parent i).prot, f⟩

/-- Physical memory after the pages have been copied into the frames. -/
def copyFrames (parent : PageTable) : List Int → List ℕ → (ℕ → ℕ → Byte) → ℕ → ℕ → Byte
  | i :: is, f :: fs, phys =>
      copyFrames parent is fs (Function.update phys f (phys (parent i).pfn))
  | _, _, phys => phys

/-- Copying changes only the frames that are copied to. -/
theorem copyFrames_of_not_mem {parent : PageTable} {fs : List ℕ} {phys : ℕ → ℕ → Byte} {f : ℕ}
    (h : f ∉ fs) : copyFrames parent is fs phys f = phys f := by
  induction is generalizing fs phys with
  | nil => rfl
  | cons i is ih =>
      cases fs with
      | nil => rfl
      | cons g gs =>
          rw [List.mem_cons, not_or] at h
          rw [copyFrames, ih h.2, Function.update_of_ne h.1]

/-- Each page is copied to the frame that its entry in the copy names, if no frame is copied
to twice and none of them is copied from. -/
theorem copyFrames_assign {parent t : PageTable} {fs : List ℕ} {phys : ℕ → ℕ → Byte} {i : Int}
    (his : is.Nodup) (hfs : fs.Nodup) (hlen : is.length ≤ fs.length)
    (hnew : ∀ j ∈ is, (parent j).pfn ∉ fs) (hi : i ∈ is) :
    copyFrames parent is fs phys
      (assign t is (List.zipWith (copiedEntry parent) is fs) i).pfn = phys (parent i).pfn := by
  induction is generalizing fs phys t with
  | nil => exact absurd hi List.not_mem_nil
  | cons j is ih =>
      obtain ⟨hj, his⟩ := List.nodup_cons.1 his
      cases fs with
      | nil => exact absurd hlen (by simp)
      | cons g gs =>
          obtain ⟨hg, hgs⟩ := List.nodup_cons.1 hfs
          rw [copyFrames, List.zipWith_cons_cons, assign_cons]
          rcases List.mem_cons.1 hi with rfl | hi
          · rw [assign_of_not_mem hj, Function.update_self]
            exact (copyFrames_of_not_mem hg).trans (Function.update_self _ _ _)
          · rw [ih his hgs (Nat.le_of_succ_le_succ hlen)
              (fun k hk hmem =>
                hnew k (List.mem_cons_of_mem _ hk) (List.mem_cons_of_mem _ hmem)) hi]
            apply Function.update_of_ne
            rintro rfl
            exact hnew i (List.mem_cons_of_mem _ hi) List.mem_cons_self

theorem copyPages_enough {parent : PageTable} {phys : ℕ → ℕ → Byte}
    (h : (is.filter fun i => (parent i).valid).length ≤ m.supply.length) :
    copyPages parent is m t phys =
      (true, m.taken (is.filter fun i => (parent i).valid).length,
        assign t (is.filter fun i => (parent i).valid)
          (List.zipWith (copiedEntry parent) (is.filter fun i => (parent i).valid) m.supply),
        copyFrames parent (is.filter fun i => (parent i).valid) m.supply phys) := by
  induction is generalizing m t phys with
  | nil => rfl
  | cons i is ih =>
      rw [copyPages]
      by_cases hv : (parent i).valid
      · rw [if_pos hv]
        rw [List.filter_cons_of_pos (by simpa using hv)] at h ⊢
        cases hs : m.supply with
        | nil => exact absurd h (by simp [hs])
        | cons f fs =>
            obtain ⟨hf, hgrab, hfs⟩ := Mem.grabAFrame_of_supply hs
            rw [hgrab]
            dsimp only
            rw [if_neg hf, ih (by simpa [hs, hfs] using h), hfs]
            simp [Nat.add_comm 1, copyFrames, copiedEntry]
      · rw [if_neg hv]
        rw [List.filter_cons_of_neg (by simpa using hv)] at h ⊢
        exact ih h

theorem copyPages_short {parent : PageTable} {phys : ℕ → ℕ → Byte}
    (h : m.supply.length < (is.filter fun i => (parent i).valid).length) :
    (copyPages parent is m t phys).1 = false := by
  induction is generalizing m t phys with
  | nil => exact absurd h (Nat.not_lt_zero _)
  | cons i is ih =>
      rw [copyPages]
      by_cases hv : (parent i).valid
      · rw [if_pos hv]
        rw [List.filter_cons_of_pos (by simpa using hv)] at h
        cases hs : m.supply with
        | nil => rw [if_pos (Mem.grabAFrame_of_supply_nil hs)]
        | cons f fs =>
            obtain ⟨hf, hgrab, hfs⟩ := Mem.grabAFrame_of_supply hs
            rw [hgrab]
            dsimp only
            rw [if_neg hf]
            apply ih
            simpa [hs, hfs] using h
      · rw [if_neg hv]
        rw [List.filter_cons_of_neg (by simpa using hv)] at h
        exact ih h

/-! ## Frames that are given back -/

theorem le_refused_freeFrame (m : Mem) (pfn : ℕ) : m.refused ≤ (m.freeFrame pfn).refused := by
  unfold Mem.freeFrame
  dsimp only
  split
  · exact Mem.le_refused_malloc m
  · exact Mem.le_refused_malloc m

theorem le_refused_freePages : m.refused ≤ (freePages is m t).1.refused := by
  induction is generalizing m t with
  | nil => exact le_rfl
  | cons i is ih =>
      unfold freePages
      split
      · exact (le_refused_freeFrame m _).trans ih
      · exact ih

/-- The entry of a page that has been given back. -/
def Pte.freed (e : Pte) : Pte := if e.valid then { e with valid := false, prot := 0 } else e

@[simp] theorem Pte.freed_valid (e : Pte) : e.freed.valid = false := by
  unfold Pte.freed
  split
  · rfl
  · rename_i hv
    simpa using hv

/-- The loop that gives pages back makes their entries invalid. -/
theorem freePages_table (i : Int) :
    (freePages is m t).2 i = if i ∈ is then (t i).freed else t i := by
  induction is generalizing m t with
  | nil => simp [freePages]
  | cons j is ih =>
      unfold freePages
      split
      · rename_i hv
        rw [ih]
        by_cases hij : i = j
        · subst hij
          simp [Pte.freed, hv]
        · simp [hij]
      · rename_i hv
        rw [ih]
        by_cases hij : i = j
        · subst hij
          simp [Pte.freed, hv]
        · simp [hij]

/-- No answer of `malloc` left for this step grows the kernel heap. -/
def Mem.Still (m : Mem) : Prop := ∀ a ∈ m.mallocs, a.grow = []

theorem Mem.Still.malloc_eq (h : m.Still) :
    m.malloc.2 = { m with mallocs := m.mallocs.tail } := by
  rw [Mem.malloc]
  split
  · rename_i hm
    rw [hm]
    exact congrArg (fun as => { m with mallocs := as }) hm
  · rename_i a as hm
    have hgrow : a.grow = [] := h a (by simp [hm])
    rw [hgrow, hm]
    rfl

theorem Mem.Still.malloc (h : m.Still) : m.malloc.2.Still := by
  rw [h.malloc_eq]
  exact fun a ha => h a (List.mem_of_mem_tail ha)

/-- The loop gives back the frames of the valid pages, one after the other. -/
theorem freePages_mem (his : is.Nodup) : (freePages is m t).1 =
    ((is.filter fun i => (t i).valid).map fun i => (t i).pfn).foldl Mem.freeFrame m := by
  induction is generalizing m t with
  | nil => rfl
  | cons i is ih =>
      obtain ⟨hi, his⟩ := List.nodup_cons.1 his
      unfold freePages
      split
      · rename_i hv
        have hsame : ∀ j ∈ is,
            Function.update t i { t i with valid := false, prot := 0 } j = t j := by
          intro j hj
          apply Function.update_of_ne
          rintro rfl
          exact hi hj
        have hfilter : (is.filter fun j =>
            (Function.update t i { t i with valid := false, prot := 0 } j).valid) =
              is.filter fun j => (t j).valid :=
          List.filter_congr fun j hj => by rw [hsame j hj]
        have hmap : (is.filter fun j => (t j).valid).map (fun j =>
            (Function.update t i { t i with valid := false, prot := 0 } j).pfn) =
              (is.filter fun j => (t j).valid).map fun j => (t j).pfn :=
          List.map_congr_left fun j hj => by rw [hsame j (List.mem_of_mem_filter hj)]
        rw [ih his, hfilter, hmap, List.filter_cons_of_pos (by simpa using hv), List.map_cons,
          List.foldl_cons]
      · rename_i hv
        rw [List.filter_cons_of_neg (by simpa using hv)]
        exact ih his

namespace Mem.Still

variable {fs : List ℕ}

theorem freeFrame (h : m.Still) (pfn : ℕ) : (m.freeFrame pfn).Still := by
  have hmem := h.malloc
  unfold Mem.freeFrame
  dsimp only
  split
  · exact hmem
  · exact hmem

theorem freeFrame_freeFrames (h : m.Still) (pfn : ℕ) : (m.freeFrame pfn).freeFrames =
    if m.mallocOk 0 = true then pfn :: m.freeFrames else m.freeFrames := by
  have hmem := h.malloc_eq
  unfold Mem.freeFrame
  dsimp only
  rw [hmem]
  change (if m.malloc.1.ok = true then _ else _ : Mem).freeFrames =
    if m.malloc.1.ok = true then _ else _
  split
  · rfl
  · rfl

theorem freeFrame_mallocOk (m : Mem) (pfn n : ℕ) :
    (m.freeFrame pfn).mallocOk n = m.mallocOk (n + 1) := by
  have hmallocs : (m.freeFrame pfn).mallocs = m.malloc.2.mallocs := by
    unfold Mem.freeFrame
    dsimp only
    split <;> rfl
  rw [Mem.mallocOk_eq, hmallocs, ← Mem.mallocOk_eq]
  rfl

theorem foldl_freeFrame (h : m.Still) (fs : List ℕ) : (fs.foldl Mem.freeFrame m).Still := by
  induction fs generalizing m with
  | nil => exact h
  | cons f fs ih => exact ih (h.freeFrame f)

theorem afterMallocs (h : m.Still) (n : ℕ) :
    (m.afterMallocs n).Still ∧ (m.afterMallocs n).freeFrames = m.freeFrames := by
  induction n generalizing m with
  | zero => exact ⟨h, rfl⟩
  | succ n ih =>
      have hfree : m.malloc.2.freeFrames = m.freeFrames := by rw [h.malloc_eq]
      have hrest := ih h.malloc
      rw [hfree] at hrest
      exact hrest

theorem length_freeFrames_le (h : m.Still) (fs : List ℕ) :
    (fs.foldl Mem.freeFrame m).freeFrames.length ≤ fs.length + m.freeFrames.length := by
  induction fs generalizing m with
  | nil => simp
  | cons f fs ih =>
      refine (ih (h.freeFrame f)).trans ?_
      rw [h.freeFrame_freeFrames f, List.length_cons]
      split
      · rw [List.length_cons]
        omega
      · omega

/-- All frames are given back if and only if there is memory for each list node. -/
theorem freeFrames_perm_iff (h : m.Still) :
    (fs.foldl Mem.freeFrame m).freeFrames.Perm (fs ++ m.freeFrames) ↔
      ∀ i < fs.length, m.mallocOk i = true := by
  induction fs generalizing m with
  | nil => simp
  | cons f fs ih =>
      have hnode := h.freeFrame_freeFrames f
      have hrest := ih (h.freeFrame f)
      simp only [freeFrame_mallocOk] at hrest
      rw [List.foldl_cons, List.length_cons]
      cases h₀ : m.mallocOk 0 with
      | true =>
          rw [h₀, if_pos rfl] at hnode
          rw [hnode] at hrest
          rw [List.cons_append, List.perm_middle.symm.congr_right, hrest]
          constructor
          · intro hall i hi
            cases i with
            | zero => exact h₀
            | succ i => exact hall i (Nat.lt_of_succ_lt_succ hi)
          · intro hall i hi
            exact hall (i + 1) (Nat.succ_lt_succ hi)
      | false =>
          rw [h₀, if_neg (by simp)] at hnode
          refine iff_of_false (fun hperm => ?_) fun hall => ?_
          · have hle := (h.freeFrame f).length_freeFrames_le fs
            rw [hperm.length_eq, hnode, List.length_append, List.length_cons] at hle
            omega
          · exact absurd (hall 0 (Nat.succ_pos _)) (by simp [h₀])

end Mem.Still

/-- With memory for the list nodes, the loop gives all frames back that the pages have. -/
theorem freePages_perm (his : is.Nodup) (hok : m.AllOk) (h : m.Still) :
    (freePages is m t).1.freeFrames.Perm
      ((is.filter fun i => (t i).valid).map (fun i => (t i).pfn) ++ m.freeFrames) := by
  rw [freePages_mem his]
  exact h.freeFrames_perm_iff.2 fun i _ => hok.mallocOk i

end Loops

theorem Refill.le_refused {x y : Mem × (Pid → Space)} (h : Refill x y) :
    x.1.refused ≤ y.1.refused :=
  h.induct (P := fun m _ => x.1.refused ≤ m.refused) le_rfl
    (fun m _ hm => hm.trans (Mem.le_refused_malloc m))
    fun _ _ _ _ hm _ hr => hm.trans (Mem.le_refused_initKStack hr)

end Yalnix
