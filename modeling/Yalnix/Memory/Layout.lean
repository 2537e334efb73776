import Yalnix.Memory.Space

/-!
# The shape of an address space

Two counters divide region 1: the heap ends below `next_heap_pn`, the stack begins above
`next_stack_pn`, and no page between them is mapped. `load_program` and the trap that grows
a stack compare the two counters, Fork copies them, and Brk looks at neither bound:
`KeepsShape` says which calls leave the shape alone.
-/

namespace Yalnix

open Transition

/-- The heap ends before the stack begins, no page from `next_heap_pn` to `next_stack_pn` is
mapped, and those above can be read and written. -/
structure Space.Shaped (x : Space) : Prop where
  heap : 0 ≤ x.nextHeapPn
  apart : x.nextHeapPn ≤ x.nextStackPn
  top : x.nextStackPn ≤ userPagetableSize - 1
  gap : ∀ i, x.nextHeapPn ≤ i → i ≤ x.nextStackPn → (x.uPageTable i).valid = false
  stack : ∀ i, x.nextStackPn < i → i < userPagetableSize →
    (x.uPageTable i).valid = true ∧ (x.uPageTable i).prot = protRead ||| protWrite

/-- The two address spaces have the same user page table and the same limits. -/
structure SameLayout (x y : Space) : Prop where
  table : y.uPageTable = x.uPageTable
  heap : y.nextHeapPn = x.nextHeapPn
  stack : y.nextStackPn = x.nextStackPn

/-- The text of a program lies below the end of its data, and neither its sizes nor those of
the arguments are so large that they overflow. -/
def Exe.Shapes (li : Exe) (args : List (List Byte)) : Prop :=
  (∀ i ∈ pages li.textPg1 1 li.tNpg.toNat, i < li.dataPg1 + li.dataNpg.toNat) ∧
    0 ≤ stackNpg args ∧ stackNpg args + li.dataPg1 + li.dataNpg.toNat < maxPtLen

instance (li : Exe) (args : List (List Byte)) : Decidable (li.Shapes args) :=
  inferInstanceAs (Decidable (_ ∧ _ ∧ _))

/-- The two programs that the machine is booted with can be loaded and are of the right
form. -/
def Boot.Shapes (b : Boot) : Prop :=
  ∀ f ∈ [b.initFile, b.idleFile], ∃ li ∈ f, li.Accepted b.args ∧ li.Shapes b.args

namespace Kernel

variable {σ σ' : Kernel} {l : Label} {p q : Pid} {o : Outcome} {li : Exe} {n : ℕ}

/-- The new break is in region 1 and not above the stack, and a break that is lowered leaves
no page mapped above it. -/
def BrkShapes (σ : Kernel) (p : Pid) : Prop :=
  0 ≤ σ.brkEnd ∧ σ.brkEnd ≤ (σ.space p).nextStackPn ∧
    ∀ i ∈ (σ.space p).validPages, σ.brkEnd ≤ i → (σ.space p).nextHeapPn ≤ i

/-- The program and the arguments that an Exec maps. -/
def execLoads (σ : Kernel) : Option (Exe × List (List Byte)) :=
  σ.world.file.bind fun li => (σ.readArgs (2 ^ 18 + 1) (σ.reg 1)).bind fun args =>
    if li.Accepted args then some (li, args) else none

/-- A Brk keeps the break where it may be, and an Exec loads a program of the right form. -/
def KeepsShape (σ : Kernel) (l : Label) : Prop :=
  ∀ p ∈ σ.activeProc,
    (l.call = some .brk → (σ.callState l).BrkShapes p) ∧
      (l.call = some .exec → ∀ x ∈ (σ.callState l).execLoads, x.1.Shapes x.2)

instance (σ : Kernel) (p : Pid) : Decidable (σ.BrkShapes p) :=
  inferInstanceAs (Decidable (_ ∧ _ ∧ _))

instance (σ : Kernel) (l : Label) : Decidable (σ.KeepsShape l) :=
  inferInstanceAs (Decidable (∀ p ∈ _, (_ → _) ∧ (_ → ∀ x ∈ _, _)))

/-- The indices of page tables that the operation which step `l` starts writes. -/
def writtenPages (σ : Kernel) (l : Label) : List Int :=
  let τ := σ.callState l
  σ.activeProc.toList.flatMap fun p =>
    match l.call with
    | some .brk => pages (τ.space p).nextHeapPn 1 (τ.brkPages p)
    | some .fork => (τ.space p).validPages
    | some .exec => τ.execLoads.toList.flatMap fun x =>
        (τ.space p).validPages ++ x.1.programPages (stackNpg x.2).toNat
    | _ =>
        if l.vector = some 3 ∧ τ.stackEnd ≤ (τ.space p).nextStackPn ∧
            τ.stackEnd > (τ.space p).nextHeapPn then τ.stackPages p else []

end Kernel

/-! ## Operations on one address space -/

namespace Space.Shaped

variable {x y : Space} {i e : Int}

theorem same (h : x.Shaped) (hs : SameLayout x y) : y.Shaped := by
  obtain ⟨htable, hheap, hstack⟩ := hs
  constructor
  · rw [hheap]
    exact h.heap
  · rw [hheap, hstack]
    exact h.apart
  · rw [hstack]
    exact h.top
  · intro i hle hge
    rw [htable]
    exact h.gap i (hheap ▸ hle) (hstack ▸ hge)
  · intro i hlt hin
    rw [htable]
    exact h.stack i (hstack ▸ hlt) hin

/-- The pages up to the break `e` have been mapped. -/
theorem raise (h : x.Shaped) {vs : List Pte} (h₀ : 0 ≤ e) (htop : e ≤ x.nextStackPn)
    (hgap : ∀ i ∈ x.validPages, e ≤ i → x.nextHeapPn ≤ i) :
    Shaped { x with
      uPageTable := assign x.uPageTable (pages x.nextHeapPn 1 (e - x.nextHeapPn).toNat) vs
      nextHeapPn := e } := by
  have hsame : ∀ i, e ≤ i → assign x.uPageTable
      (pages x.nextHeapPn 1 (e - x.nextHeapPn).toNat) vs i = x.uPageTable i := by
    intro i hi
    apply assign_of_not_mem
    rw [mem_pages_up]
    omega
  refine ⟨h₀, htop, h.top, fun i hle hge => ?_, fun i hlt hin => ?_⟩
  · dsimp only at hle hge ⊢
    rw [hsame i hle]
    by_cases hheap : x.nextHeapPn ≤ i
    · exact h.gap i hheap hge
    · by_contra hv
      have htable : inTable i := ⟨by omega, lt_of_le_of_lt hge (Int.lt_of_le_sub_one h.top)⟩
      exact hheap (hgap i (Space.mem_validPages.2 ⟨htable, by simpa using hv⟩) hle)
  · dsimp only at hlt ⊢
    rw [hsame i (le_of_lt (lt_of_le_of_lt htop hlt))]
    exact h.stack i hlt hin

/-- The stack has been grown down to the page above `e`. -/
theorem grow (h : x.Shaped) {fs : List ℕ} (hlo : x.nextHeapPn < e) (hhi : e ≤ x.nextStackPn)
    (hlen : (x.nextStackPn - e).toNat ≤ fs.length) :
    Shaped { x with
      uPageTable := assign x.uPageTable (pages x.nextStackPn (-1) (x.nextStackPn - e).toNat)
        (fs.map Pte.rw)
      nextStackPn := e } := by
  refine ⟨h.heap, le_of_lt hlo, hhi.trans h.top, fun i hle hge => ?_, fun i hlt hin => ?_⟩
  · dsimp only at hle hge ⊢
    rw [assign_of_not_mem]
    · exact h.gap i hle (hge.trans hhi)
    · rw [mem_pages_down]
      omega
  · dsimp only at hlt ⊢
    by_cases hnew : i ≤ x.nextStackPn
    · obtain ⟨f, -, hf⟩ := assign_rw (t := x.uPageTable) (by simpa using hlen)
        (mem_pages_down.2 (by omega) : i ∈ pages x.nextStackPn (-1) (x.nextStackPn - e).toNat)
      rw [hf]
      exact ⟨rfl, rfl⟩
    · rw [assign_of_not_mem]
      · exact h.stack i (not_le.1 hnew) hin
      · rw [mem_pages_down]
        omega

end Space.Shaped

/-- The pages of a program of the right form are in the table. -/
theorem Exe.Shapes.inTable {li : Exe} {args : List (List Byte)} (h : li.Shapes args)
    {i : Int} (hi : i ∈ li.programPages (stackNpg args).toNat) :
    inTable i := by
  obtain ⟨htext, hargs, hfree⟩ := h
  have hbase : 0 ≤ li.textPg1 ∧ 0 ≤ li.dataPg1 := ⟨Int.natCast_nonneg _, Int.natCast_nonneg _⟩
  unfold maxPtLen at hfree
  unfold Yalnix.inTable userPagetableSize
  rw [Exe.programPages, List.mem_append, List.mem_append, mem_pages_down] at hi
  rcases hi with hi | hi | hi
  · have hlt := htext i hi
    rw [mem_pages_up] at hi
    omega
  · rw [mem_pages_up] at hi
    omega
  · unfold userPagetableSize at hi
    omega

namespace Space.Shaped

variable {x y : Space} {i e : Int}

/-- A program has been loaded into a page table without mapped pages. -/
theorem load {li : Exe} {args : List (List Byte)} (hli : li.Shapes args) {t : PageTable}
    {fs : List ℕ} (ht : ∀ i, inTable i → (t i).valid = false)
    (hlen : (li.programPages (stackNpg args).toNat).length ≤ fs.length) :
    Shaped { li.limits (stackNpg args).toNat x with
      uPageTable := assign t (li.programPages (stackNpg args).toNat) (fs.map Pte.rw) } := by
  obtain ⟨htext, hargs, hfree⟩ := hli
  have hdata : 0 ≤ li.dataPg1 := Int.natCast_nonneg _
  have hmem : ∀ i, li.dataPg1 + li.dataNpg.toNat ≤ i → (i ∈ li.programPages (stackNpg args).toNat ↔
      userPagetableSize - 1 - (stackNpg args).toNat < i ∧ i ≤ userPagetableSize - 1) := by
    intro i hi
    rw [Exe.programPages, List.mem_append, List.mem_append, mem_pages_up, mem_pages_up,
      mem_pages_down]
    have hout : ¬(li.textPg1 ≤ i ∧ i < li.textPg1 + li.tNpg.toNat) := fun hin =>
      absurd (htext i (mem_pages_up.2 hin)) (not_lt.2 hi)
    omega
  unfold userPagetableSize at hmem
  unfold maxPtLen at hfree
  refine ⟨?_, ?_, ?_, fun i hle hge => ?_, fun i hlt hin => ?_⟩
  · simp only [Exe.limits]
    omega
  · simp only [Exe.limits, userPagetableSize]
    omega
  · simp only [Exe.limits]
    omega
  · simp only [Exe.limits, userPagetableSize] at hle hge ⊢
    rw [assign_of_not_mem]
    · exact ht i ⟨by omega, by rw [userPagetableSize]; omega⟩
    · rw [hmem i hle]
      omega
  · simp only [Exe.limits, userPagetableSize] at hlt hin ⊢
    obtain ⟨f, -, hf⟩ := assign_rw (t := t) hlen ((hmem i (by omega)).2 (by omega))
    rw [hf]
    exact ⟨rfl, rfl⟩

/-- The text of a program has got its protection. -/
theorem protect {li : Exe} {args : List (List Byte)} (hli : li.Shapes args) (h : x.Shaped)
    (hheap : x.nextHeapPn = li.dataPg1 + li.dataNpg.toNat) :
    Shaped { x with uPageTable := Kernel.protectText li x.uPageTable } := by
  have hsame : ∀ i, x.nextHeapPn ≤ i → Kernel.protectText li x.uPageTable i = x.uPageTable i := by
    intro i hi
    unfold Kernel.protectText
    rw [if_neg]
    intro hin
    have hlt := hli.1 i (mem_pages_up.2 hin)
    omega
  refine ⟨h.heap, h.apart, h.top, fun i hle hge => ?_, fun i hlt hin => ?_⟩
  · dsimp only at hle ⊢
    rw [hsame i hle]
    exact h.gap i hle hge
  · dsimp only at hlt ⊢
    rw [hsame i (h.apart.trans (le_of_lt hlt))]
    exact h.stack i hlt hin

end Space.Shaped

theorem SameLayout.refl (x : Space) : SameLayout x x := ⟨rfl, rfl, rfl⟩

theorem SameLayout.trans {x y z : Space} (h : SameLayout x y) (h' : SameLayout y z) :
    SameLayout x z :=
  ⟨h'.table.trans h.table, h'.heap.trans h.heap, h'.stack.trans h.stack⟩

/-- Refills leave the user page tables and the limits alone. -/
theorem Refill.layout {x y : Mem × (Pid → Space)} (h : Refill x y) (q : Pid) :
    SameLayout (x.2 q) (y.2 q) := by
  refine h.induct (P := fun _ s => SameLayout (x.2 q) (s q)) (.refl _) (fun _ _ h => h) ?_
  intro m s r t hs _ _
  by_cases hq : q = r
  · subst hq
    rw [Function.update_self]
    exact ⟨hs.table, hs.heap, hs.stack⟩
  · rwa [Function.update_of_ne hq]

/-! ## Steps -/

namespace Kernel

variable {σ σ' τ : Kernel} {l : Label} {p q : Pid} {o : Outcome} {li : Exe} {n : ℕ}

/-- A program that has been mapped without missing a frame is shaped, and the other address
spaces are as they were. -/
theorem mapProgram_shaped {args : List (List Byte)} {b : Bool} (hli : li.Shapes args)
    (h : σ.mapProgram li (stackNpg args).toNat p = some (b, σ'))
    (href : σ'.mem.refused ≤ σ.mem.refused) :
    ((σ'.space p).Shaped ∧ (σ'.space p).nextHeapPn = li.dataPg1 + li.dataNpg.toNat) ∧
      ∀ q, q ≠ p → σ'.space q = σ.space q := by
  rcases mapProgram_cases h with ⟨-, hlen, -, rfl⟩ | ⟨-, hlt⟩
  · refine ⟨⟨?_, ?_⟩, fun q hq => setMap_of_ne _ _ hq⟩
    · rw [setMap_self]
      refine .load hli (fun i hi => ?_) hlen
      rw [freedPages, freePages_table, if_pos (inTable_userPages.2 hi)]
      exact Pte.freed_valid _
    · rw [setMap_self]
      rfl
  · have hle : σ.mem.refused ≤ (σ.freedPages p).1.refused := le_refused_freePages
    omega

/-- A program that has been loaded without missing a frame is shaped, and the other
address spaces are as they were. -/
theorem loadProgram_shaped {file : Option Exe} {args : Option (List (List Byte))} {rc : Int}
    (h : σ.loadProgram file args p = some (rc, σ')) (href : σ'.mem.refused ≤ σ.mem.refused)
    (hli : ∀ li ∈ file, ∀ av ∈ args, li.Accepted av → li.Shapes av) (q : Pid) :
    SameLayout (σ.space q) (σ'.space q) ∨ q = p ∧ (σ'.space q).Shaped := by
  rcases loadProgram_space h with ⟨hspace, -⟩ |
    ⟨li, hfile, av, hav, b, τ, hacc, hmap, hmem, hspace, -⟩
  · left
    rw [hspace]
    exact .refl _
  have hmalloc : ((σ.setSp p (argTable av)).malloc.2).mem = σ.mem.malloc.2 := rfl
  have hstart : ((σ.setSp p (argTable av)).malloc.2).space = σ.space := rfl
  have hle := Mem.le_refused_malloc σ.mem
  obtain ⟨⟨hshaped, hheap⟩, hothers⟩ := mapProgram_shaped (hli li hfile av hav hacc) hmap
    (by rw [← hmem, hmalloc]; omega)
  rw [hstart] at hothers
  by_cases hq : q = p
  · subst hq
    refine Or.inr ⟨rfl, ?_⟩
    rcases hspace with hspace | hspace
    · rw [hspace]
      exact hshaped
    · rw [hspace, protect_self]
      exact hshaped.protect (hli li hfile av hav hacc) hheap
  · left
    rcases hspace with hspace | hspace
    · rw [hspace, hothers q hq]
      exact .refl _
    · rw [hspace, protect_of_ne hq, hothers q hq]
      exact .refl _

/-- A Brk that keeps the break where it may be leaves the shape alone. -/
theorem sysBrk_shaped (h : σ.sysBrk p = some (o, σ')) (href : σ'.mem.refused ≤ σ.mem.refused)
    (hx : (σ.space p).Shaped) (hb : σ.BrkShapes p) :
    (σ'.space p).Shaped ∧ ∀ q, q ≠ p → σ'.space q = σ.space q := by
  obtain ⟨r, hgrab, h⟩ := Option.map_eq_some_iff.1 h
  rcases grabPages_cases hgrab with ⟨-, -, rfl⟩ | ⟨hr, hlt⟩
  · obtain ⟨rfl, rfl⟩ := Prod.mk.inj h
    refine ⟨?_, fun q hq => setMap_of_ne _ _ hq⟩
    rw [setMap_self]
    exact hx.raise hb.1 hb.2.1 hb.2.2
  · have hmem : σ'.mem = r.2.1 := by
      split at h
      · rw [← (Prod.mk.inj h).2, setMap_mem]
      · rw [← (Prod.mk.inj h).2, setMap_mem]
    rw [hmem] at href
    exact absurd hlt (not_lt.2 href)

theorem growUserStack_shaped (h : σ.growUserStack p = some σ')
    (href : σ'.mem.refused ≤ σ.mem.refused) (hx : (σ.space p).Shaped)
    (hfit : σ.stackEnd ≤ (σ.space p).nextStackPn ∧ σ.stackEnd > (σ.space p).nextHeapPn) :
    (σ'.space p).Shaped ∧ ∀ q, q ≠ p → σ'.space q = σ.space q := by
  obtain ⟨⟨m, t⟩, hgrow, rfl⟩ := Option.map_eq_some_iff.1 h
  refine ⟨?_, fun q hq => Function.update_of_ne hq _ _⟩
  have hlen : (σ.stackPages p).length ≤ σ.mem.supply.length := by
    by_contra hshort
    have hlt := growStack_short (not_le.1 hshort) hgrow
    exact absurd href (not_le.2 hlt)
  rw [growStack_enough hlen] at hgrow
  split at hgrow
  swap
  · exact absurd hgrow (by simp)
  obtain ⟨rfl, rfl⟩ := Prod.mk.inj (Option.some.inj hgrow)
  dsimp only
  rw [Function.update_self]
  refine hx.grow hfit.2 hfit.1 ?_
  rwa [stackPages, length_pages] at hlen

/-- The child of a Fork has the shape of its parent. -/
theorem Forked.shaped (h : Forked σ p τ) (hx : (σ.space p).Shaped)
    (hlen : (σ.space p).validPages.length ≤ (σ.forkMem.supply.drop 2).length) :
    (τ.space σ.nextPid).Shaped := by
  rw [h.child]
  refine ⟨hx.heap, hx.apart, hx.top, fun i hle hge => ?_, fun i hlt hin => ?_⟩
  · dsimp only at hle hge ⊢
    rw [assign_of_not_mem]
    rw [Space.mem_validPages, hx.gap i hle hge]
    simp
  · dsimp only at hlt ⊢
    obtain ⟨hvalid, hprot⟩ := hx.stack i hlt hin
    have hmem : i ∈ (σ.space p).validPages :=
      Space.mem_validPages.2 ⟨⟨hx.heap.trans (hx.apart.trans (le_of_lt hlt)), hin⟩, hvalid⟩
    obtain ⟨f, -, hf⟩ := assign_zipWith (f := fun _ => {}) (g := copiedEntry (σ.space p).uPageTable)
      (σ.space p).nodup_validPages hlen hmem
    rw [hf]
    exact ⟨rfl, hprot⟩

/-- What an Exec loads does not break the shape. -/
theorem sysExec_shaped (h : σ.sysExec p = some (o, σ')) (href : σ'.mem.refused ≤ σ.mem.refused)
    (hli : ∀ x ∈ σ.execLoads, x.1.Shapes x.2) (q : Pid) :
    SameLayout (σ.space q) (σ'.space q) ∨ q = p ∧ (σ'.space q).Shaped := by
  rcases sysExec_space h with ⟨-, rfl⟩ | ⟨rc, τ, hload, hmem, hspace, -⟩
  · exact Or.inl (.refl _)
  · rw [hspace]
    apply loadProgram_shaped hload
    · rwa [← hmem]
    · intro li hfile av hav hacc
      apply hli (li, av)
      rw [Option.mem_def, execLoads, Option.mem_def.1 hfile, Option.bind_some, Option.mem_def.1 hav,
        Option.bind_some, if_pos hacc]

/-- A step that keeps the shape, with the frames that it asks for, keeps it for every
process. -/
theorem step_shaped (hinv : σ.Placed) (h : Steps σ l σ') (ha : σ.Allocates l σ')
    (hk : σ.KeepsShape l) (hx : ∀ q ∈ σ.live, (σ.space q).Shaped) :
    ∀ q ∈ σ'.live, (σ'.space q).Shaped := by
  have href : σ'.mem.refused ≤ σ.mem.refused := ha.2.le
  -- the operations that change the address space of the running process only
  have hone : ∀ {p : Pid}, σ.activeProc = some p → σ'.live = σ.live → (σ'.space p).Shaped ∧
      (∀ q, q ≠ p → σ'.space q = σ.space q) → ∀ q ∈ σ'.live, (σ'.space q).Shaped := by
    rintro p hp hlive ⟨hself, hothers⟩ q hq
    by_cases hqp : q = p
    · rwa [hqp]
    · rw [hothers q hqp]
      exact hx q (hlive ▸ hq)
  cases space_step h with
  | refills hrefill hlive =>
      intro q hq
      exact (hx q (hlive ▸ hq)).same (hrefill.layout q)
  | brk u p o τ hl hc hp hrun he =>
      subst he
      rw [finish_mem] at href
      have hbrk := (hk p hp).1 hc
      rw [callState_trap hl] at hbrk
      have hlive := ((sysBrk_touches hrun).seq (finish_touches o τ)).same .pids (by simp)
      have hshaped := sysBrk_shaped hrun href (hx p (hinv.live_of_active hp)) hbrk
      apply hone hp hlive.2
      rw [finish_space]
      exact hshaped
  | fork u p o τ hl hc hp hrun he =>
      subst he
      have hlive := hinv.live_of_active hp
      obtain ⟨h₀, hlt⟩ := hinv.bound p hlive
      have hsame : τ.mem.refused = ((σ.begin l).enter u).mem.refused := by
        rw [← finish_mem o, ha.2]
        rfl
      obtain ⟨τ', hforked, hframes, -, rfl⟩ := sysFork_forked
        (show ((σ.begin l).enter u).mem.AllOk from ha.begin) h₀ hlt hrun hsame
      have hready := readyInsert_touches τ' ((σ.begin l).enter u).nextPid
      intro q hq
      have hlayout := (hready.same .frames (by simp)).layout q
      dsimp only at hlayout
      rw [finish_space]
      refine Space.Shaped.same ?_ hlayout
      have hend := (hready.seq (finish_touches o _)).same .pids (by simp)
      rw [hend.2, hforked.live] at hq
      rcases List.mem_append.1 hq with hq | hq
      · rw [hforked.space q (ne_of_lt (hinv.bound q hq).2)]
        exact hx q hq
      · rw [List.mem_singleton.1 hq]
        apply hforked.shaped (hx p hlive)
        rw [List.length_drop]
        exact Nat.le_sub_of_add_le' hframes
  | exec u p o τ hl hc hp hrun he =>
      subst he
      rw [finish_mem] at href
      have hexec := (hk p hp).2 hc
      rw [callState_trap hl] at hexec
      have hlive := ((sysExec_touches hrun).seq (finish_touches o τ)).same .pids (by simp)
      intro q hq
      rw [finish_space]
      rcases sysExec_shaped hrun href hexec q with hsame | ⟨-, hshaped⟩
      · exact (hx q (hlive.2 ▸ hq)).same hsame
      · exact hshaped
  | exit p τ hp hτ hrun hlive _ =>
      intro q hq
      rw [hlive, hinv.nodup.mem_erase_iff] at hq
      have hfree : (τ.freeSpace p).space q = τ.space q := Function.update_of_ne hq.1 _ _
      have hafter := hrun.layout q
      dsimp only at hafter
      rw [hfree] at hafter
      exact (hx q hq.2).same ((hτ.layout q).trans hafter)
  | grow u p τ hl hv hp hfit hrun he =>
      subst he
      have hlive := ((growUserStack_touches hrun).seq (returnUser_touches τ)).same .pids (by simp)
      have hshaped := growUserStack_shaped hrun href (hx p (hinv.live_of_active hp)) hfit
      exact hone hp hlive.2 hshaped

/-! ## The boot -/

/-- A program that is accepted gets a new shape, unless it misses a frame. -/
theorem loadProgram_new {args : List (List Byte)} {rc : Int} (hacc : li.Accepted args)
    (hli : li.Shapes args) (hok : σ.mem.malloc.1.ok = true)
    (h : σ.loadProgram (some li) (some args) p = some (rc, σ'))
    (href : σ'.mem.refused ≤ σ.mem.refused) : (σ'.space p).Shaped := by
  rw [loadProgram_accepted hacc hok] at h
  obtain ⟨⟨b, τ⟩, hmap, h⟩ := Option.bind_eq_some_iff.1 h
  have hmalloc := Mem.le_refused_malloc σ.mem
  have hstart : ((σ.setSp p (argTable args)).malloc.2).mem = σ.mem.malloc.2 := rfl
  dsimp only at h
  have hmem : σ'.mem = τ.mem := by
    cases b with
    | true =>
        rw [if_pos rfl] at h
        exact (fillProgram_space h).1
    | false => exact congrArg Kernel.mem (Prod.mk.inj (Option.some.inj h)).2.symm
  rw [hmem] at href
  obtain ⟨⟨hshaped, hheap⟩, -⟩ := mapProgram_shaped hli hmap
    (by rw [hstart]; exact href.trans hmalloc)
  cases b with
  | true =>
      rw [if_pos rfl] at h
      rcases (fillProgram_space h).2.1 with hspace | hspace
      · rwa [hspace]
      · rw [hspace, protect_self]
        exact hshaped.protect hli hheap
  | false =>
      obtain ⟨-, rfl⟩ := Prod.mk.inj (Option.some.inj h)
      exact hshaped

section Boot

variable {b : Boot} {σ₀ : Kernel} {m : Mem}

theorem le_refused_bootProc {state : ProcState} {uctxt : UserContext}
    {kStackPt : PageTable → Mem → Option (Mem × PageTable)}
    (hk : ∀ t m r, kStackPt t m = some r → m.refused ≤ r.1.refused)
    (h : σ.bootProc state uctxt kStackPt = some τ) : σ.mem.refused ≤ τ.mem.refused := by
  obtain ⟨r, hr, hmem, -⟩ := bootProc_space h
  rw [hmem]
  calc σ.mem.refused ≤ σ.mem.malloc.2.refused := Mem.le_refused_malloc _
    _ ≤ σ.mem.malloc.2.malloc.2.refused := Mem.le_refused_malloc _
    _ ≤ r.1.refused := hk _ _ _ hr

/-- A program that one of the first two processes is made with. -/
theorem boot_shaped {file : Option Exe} {args : List (List Byte)} {rc : Int}
    {state : ProcState} {uctxt : UserContext}
    {kStackPt : PageTable → Mem → Option (Mem × PageTable)}
    (hfile : ∃ li ∈ file, li.Accepted args ∧ li.Shapes args)
    (hk : ∀ t m r, m.AllOk → kStackPt t m = some r → r.1.AllOk) (hok : σ.mem.AllOk)
    (hboot : σ.bootProc state uctxt kStackPt = some τ)
    (h : τ.loadProgram file (some args) σ.nextPid = some (rc, σ'))
    (href : σ'.mem.refused ≤ τ.mem.refused) :
    (σ'.space σ.nextPid).Shaped ∧
      ∀ q, q ≠ σ.nextPid → SameLayout (σ.space q) (σ'.space q) := by
  obtain ⟨li, rfl, hacc, hli⟩ := hfile
  refine ⟨loadProgram_new hacc hli (bootProc_allOk hok hk hboot).ok h href, fun q hq => ?_⟩
  obtain ⟨r, -, -, hspace, -⟩ := bootProc_space hboot
  have hall : ∀ li' ∈ some li, ∀ av ∈ some args, li'.Accepted av → li'.Shapes av := by
    intro li' hli' av hav _
    rwa [← Option.mem_some_iff.1 hli', ← Option.mem_some_iff.1 hav]
  rcases loadProgram_shaped h href hall q with hsame | ⟨hq', -⟩
  · rwa [hspace, Function.update_of_ne hq] at hsame
  · exact absurd hq' hq

/-- After a boot in which no frame is missing and both programs can be loaded, init and idle
have well shaped address spaces. -/
theorem kernelStart_shaped (hok : ∀ a ∈ b.procMallocs, a.ok = true) (hb : b.Shapes)
    (hm : bootMem b = some m) (h : kernelStart b = some σ₀)
    (href : σ₀.mem.refused = m.refused) : ∀ q ∈ σ₀.live, (σ₀.space q).Shaped := by
  have hlive := (kernelStart_booted h).live
  unfold kernelStart at h
  rw [hm, Option.bind_some] at h
  obtain ⟨σ₁, h₁, h⟩ := Option.bind_eq_some_iff.1 h
  obtain ⟨σ₂, h₂, h⟩ := Option.bind_eq_some_iff.1 h
  have hnext := (initInit_booting (.empty m) h₁).nextPid
  have hok₀ := bootMem_allOk hok hm
  have hok₁ := initInit_allOk (σ := empty m) hok₀ h₁
  obtain ⟨τ₁, hτ₁, h₁⟩ := Option.bind_eq_some_iff.1 h₁
  obtain ⟨⟨rc₁, σ₁'⟩, hload₁, rfl⟩ := Option.map_eq_some_iff.1 h₁
  obtain ⟨τ₂, hτ₂, h₂⟩ := Option.bind_eq_some_iff.1 h₂
  obtain ⟨⟨rc₂, σ₂'⟩, hload₂, rfl⟩ := Option.map_eq_some_iff.1 h₂
  obtain ⟨r, hr, rfl⟩ := Option.map_eq_some_iff.1 h
  -- no frame has been missing anywhere between the first state and the last
  have href' : r.1.refused = m.refused := href
  have hready := (readyInsert_touches σ₂' idle).same .frames (by simp)
  have hle₁ : m.refused ≤ τ₁.mem.refused :=
    le_refused_bootProc (fun t m r hr => Mem.le_refused_initKStack hr) hτ₁
  have hle₂ := le_refused_loadProgram hload₁
  have hle₃ : σ₁'.mem.refused ≤ τ₂.mem.refused := le_refused_bootProc (fun t m r hr => by
    obtain rfl := Option.some.inj hr
    exact le_rfl) hτ₂
  have hle₄ := le_refused_loadProgram hload₂
  have hle₅ : σ₂'.mem.refused ≤ (σ₂'.readyInsert idle).2.mem.refused := hready.le_refused
  have hle₆ : (σ₂'.readyInsert idle).2.mem.refused ≤ r.1.refused := Mem.le_refused_initKStack hr
  have hinit := boot_shaped (hb _ (by simp)) (fun t m r hm hr => hm.initKStack hr) hok₀ hτ₁ hload₁
    (by omega)
  have hidle := boot_shaped (hb _ (by simp)) (fun t m r hm hr => by
    obtain rfl := Option.some.inj hr
    exact hm) hok₁ hτ₂ hload₂ (by omega)
  dsimp only at hnext hidle
  rw [hnext] at hidle
  intro q hq
  rw [hlive, List.mem_pair] at hq
  refine Space.Shaped.same ?_ (hready.layout q)
  rcases hq with rfl | rfl
  · exact hinit.1.same (hidle.2 0 (by decide))
  · exact hidle.1

/-- The operation that a step starts writes no index outside the table. -/
theorem writtenPages_inTable {p : Pid} (hp : σ.activeProc = some p) (hx : (σ.space p).Shaped)
    (hk : σ.KeepsShape l) {i : Int} (hi : i ∈ σ.writtenPages l) : inTable i := by
  have hspace : (σ.callState l).space = σ.space := by
    unfold callState
    split <;> rfl
  obtain ⟨hbrk, hexec⟩ := hk p hp
  have hbounds := hx.heap.trans hx.apart
  have htop := hx.top
  have hheap := hx.heap
  unfold userPagetableSize at htop
  unfold inTable userPagetableSize
  simp only [writtenPages, hp, Option.toList_some, List.flatMap_cons, List.flatMap_nil,
    List.append_nil] at hi
  split at hi
  · rename_i hc
    obtain ⟨-, hend, -⟩ := hbrk hc
    rw [mem_brkPages, BrkAdds] at hi
    rw [hspace] at hi hend
    omega
  · rw [Space.mem_validPages, hspace] at hi
    exact hi.1
  · rename_i hc
    obtain ⟨⟨li, args⟩, hload, hi⟩ := List.mem_flatMap.1 hi
    rw [Option.mem_toList] at hload
    rcases List.mem_append.1 hi with hi | hi
    · exact (Space.mem_validPages.1 hi).1
    · exact (hexec hc _ hload).inTable hi
  · split at hi
    swap
    · exact absurd hi (by simp)
    rename_i hgrow
    rw [stackPages, mem_pages_down] at hi
    rw [hspace] at hgrow hi
    omega

/-- In every run in which frames and kernel memory are always available, no Brk moves the
break where it may not be and each program has the right form, the heap and the stack of
every process stay apart, and no index outside a page table is written. -/
theorem run_shaped {tr : List (Move Kernel Label)} (hok : ∀ a ∈ b.procMallocs, a.ok = true)
    (hb : b.Shapes) (h₀ : kernelStart b = some σ₀)
    (hframes : ∀ m ∈ bootMem b, σ₀.mem.refused = m.refused)
    (h : Run step (fun σ l σ' => (σ.Allocates l σ' ∧ σ.IdlePauses l) ∧ σ.KeepsShape l) σ₀ tr σ) :
    (∀ q ∈ σ.live, (σ.space q).Shaped) ∧
      ∀ l, σ.KeepsShape l → ∀ i ∈ σ.writtenPages l, inTable i := by
  have hplaced := (stacked_of_run hok h₀ (h.mono fun _ _ _ _ hC => hC.1)).1
  have hshaped : σ.Placed ∧ ∀ q ∈ σ.live, (σ.space q).Shaped := by
    refine h.invariant (I := fun σ => σ.Placed ∧ ∀ q ∈ σ.live, (σ.space q).Shaped) ?_ ?_
    · obtain ⟨m, hm, -⟩ := Option.bind_eq_some_iff.1 h₀
      exact ⟨placed_boot (kernelStart_booted h₀) (kernelStart_ready hok h₀),
        kernelStart_shaped hok hb hm h₀ (hframes m hm)⟩
    · rintro σ l σ' ⟨hinv, hx⟩ hs ⟨⟨ha, hi⟩, hk⟩
      exact ⟨hinv.step (step_cases hs) ha hi, step_shaped hinv (step_cases hs) ha hk hx⟩
  refine ⟨hshaped.2, fun l hk i hi => ?_⟩
  obtain ⟨p, hp⟩ := Option.ne_none_iff_exists'.1 hplaced.active
  exact writtenPages_inTable hp (hshaped.2 p (hplaced.live_of_active hp)) hk hi

/-- Init of the small machine raises its break and then grows its stack. -/
theorem run_shaped_small : ∃ σ₀ tr σ, kernelStart smallBoot = some σ₀ ∧ tr.length = 2 ∧
    Run step (fun σ l σ' => (σ.Allocates l σ' ∧ σ.IdlePauses l) ∧ σ.KeepsShape l) σ₀ tr σ ∧
      (∀ q ∈ σ.live, (σ.space q).Shaped) ∧
        ∀ l, σ.KeepsShape l → ∀ i ∈ σ.writtenPages l, inTable i := by
  obtain ⟨σ₀, tr, σ, h₀, hr, hlen⟩ := bootExec_run (b := smallBoot)
    (C := fun σ l σ' => (σ.Allocates l σ' ∧ σ.IdlePauses l) ∧ σ.KeepsShape l)
    (t := [smallCall .brk 0x106000 0 0, { event := .trap { vector := 3, addr := 0x1FA000 } }])
    (by decide +kernel)
  obtain ⟨m, hm, hrefused⟩ : ∃ m, bootMem smallBoot = some m ∧ σ₀.mem.refused = m.refused := by
    have hrun : ((bootMem smallBoot).bind fun m => (kernelStart smallBoot).map fun σ =>
        decide (σ.mem.refused = m.refused)) = some true := by
      decide +kernel
    obtain ⟨m, hm, hrun⟩ := Option.bind_eq_some_iff.1 hrun
    rw [h₀] at hrun
    exact ⟨m, hm, of_decide_eq_true (Option.some.inj hrun)⟩
  refine ⟨σ₀, tr, σ, h₀, hlen, hr, run_shaped (by decide) ?_ h₀ ?_ hr⟩
  · intro f hf
    obtain rfl : f = some smallExe := by simpa [smallBoot] using hf
    exact ⟨smallExe, rfl, by decide, by decide⟩
  · intro m' hm'
    rw [← Option.some.inj (hm.symm.trans hm')]
    exact hrefused

/-- Init of the small machine moves its break to below region 1: the heap limit is negative
then, and the next Brk writes in front of the page table. -/
theorem brk_breaks_shape : ∃ σ₀ tr σ, kernelStart smallBoot = some σ₀ ∧
    Run step (fun σ l σ' => σ.Allocates l σ' ∧ σ.IdlePauses l) σ₀ tr σ ∧
      (¬∀ q ∈ σ.live, (σ.space q).Shaped) ∧ ¬∀ l, ∀ i ∈ σ.writtenPages l, inTable i := by
  obtain ⟨σ₀, tr, σ, h₀, hr, hlive, hneg, hwritten⟩ := bootExec_state (b := smallBoot)
    (C := fun σ l σ' => σ.Allocates l σ' ∧ σ.IdlePauses l)
    (t := [smallCall .brk 0xFE000 0 0])
    (P := fun σ => 0 ∈ σ.live ∧ (σ.space 0).nextHeapPn < 0 ∧
      -1 ∈ σ.writtenPages (smallCall .brk 0x102000 0 0)) (by decide +kernel)
  refine ⟨σ₀, tr, σ, h₀, hr, fun hx => ?_, fun hall => ?_⟩
  · exact absurd (hx 0 hlive).heap (not_le.2 hneg)
  · exact absurd (hall _ _ hwritten).1 (by decide)

end Boot

end Kernel

end Yalnix
