import Yalnix.Runs
import Yalnix.Tty.Read
import Yalnix.Tree.Status

/-!
# Creating objects

PipeInit, LockInit and CvarInit ask `malloc` for several blocks, store the new id, and then
put the object and its record for Reclaim into two lists. Nothing is undone when the second
list cannot have its node, and CvarInit does not look whether it has got the record. None of
them looks at the pointer either: one into region 0 makes the kernel store the id into its own
memory and go on.
-/

namespace Yalnix

open Transition

/-- How often an Init call has called `malloc` when it stores the id. -/
def Kind.blocks : Kind → ℕ
  | .pipe => 4
  | .lock => 3
  | .cvar => 3

/-- The calls of `malloc` before that whose result the Init call looks at. -/
def Kind.checked : Kind → List ℕ
  | .pipe => [0, 1, 2, 3]
  | .lock => [0, 1, 2]
  | .cvar => [1, 2]

namespace Kernel

/-- The Init call for objects of type `k`. -/
def initCall (σ : Kernel) (p : Pid) : Kind → Option (Outcome × Kernel)
  | .pipe => σ.sysPipeInit p
  | .lock => σ.sysLockInit p
  | .cvar => σ.sysCvarInit p

/-- The object lists and the list for Reclaim are as before. -/
def SameObjects (σ σ' : Kernel) : Prop :=
  σ'.pipes = σ.pipes ∧ σ'.locks = σ.locks ∧ σ'.cvars = σ.cvars ∧
    σ'.reclaimList = σ.reclaimList

/-- A new object of type `k`, which nobody waits for, has been put behind the others. -/
def withObject (σ : Kernel) (k : Kind) (hint : ℕ) : Kernel :=
  match k with
  | .pipe => { σ with pipes := σ.pipes.alloc hint ⟨σ.newId, 0, fun _ => 0, []⟩ }
  | .lock => { σ with locks := σ.locks.alloc hint ⟨σ.newId, false, 0, []⟩ }
  | .cvar => { σ with cvars := σ.cvars.alloc hint ⟨σ.newId, []⟩ }

/-- One object of type `k` and its record for Reclaim have been added, and the caller can
read the id. -/
structure Created (σ : Kernel) (k : Kind) (σ' : Kernel) : Prop where
  object : ∃ hint, σ'.pipes = (σ.withObject k hint).pipes ∧
    σ'.locks = (σ.withObject k hint).locks ∧ σ'.cvars = (σ.withObject k hint).cvars
  record : σ'.reclaimList = σ.reclaimList ++ [⟨σ.newId, k⟩]
  stored : σ'.wordAt (σ.reg 0) = some (BitVec.ofInt 32 σ.newId)

/-- The id is stored for the caller. -/
def storeId (σ : Kernel) : Option Kernel :=
  σ.storeInt (σ.reg 0) (BitVec.ofInt 32 σ.newId)

/-- A call of `malloc` that the Init call comes to does not yield a block. -/
def RunsOut (σ : Kernel) (k : Kind) : Prop :=
  ∃ i < k.blocks + 2, σ.mem.mallocOk i = false ∧ (i < k.blocks ∨ σ.storeId.isSome = true)

/-- An Init call that returns 0 has made its object, and one that runs out of memory fails
with the lists as before. -/
structure AllOrNothing (σ : Kernel) (p : Pid) (k : Kind) : Prop where
  all : ∀ σ', σ.initCall p k = some (.ret 0, σ') → Created σ k σ'
  nothing : RunsOut σ k → ∃ σ', σ.initCall p k = some (.ret error, σ') ∧ SameObjects σ σ'

/-- The id is to go into region 0, where the kernel can write. -/
def KernelPointer (σ : Kernel) : Prop := σ.reg 0 < vmem1Base

/-- When an Init call with a pointer of its process is all or nothing once `malloc` has
yielded what the call looks at: none fails and the id cannot be stored, or it is stored and
there is memory for all that is in the two lists, or none for the first node. -/
def StoreFits (σ : Kernel) (k : Kind) : Prop :=
  σ.storeId = none ∧ (∀ i < k.blocks, σ.mem.mallocOk i = true) ∨
    σ.storeId.isSome = true ∧
      (σ.mem.mallocOk k.blocks = false ∨ ∀ i < k.blocks + 2, σ.mem.mallocOk i = true)

/-- When an Init call is all or nothing: it sees at once that a call of `malloc` fails, or it
stores the id for the process, not for the kernel, and gets through or stops early enough. -/
def InitFits (σ : Kernel) (k : Kind) : Prop :=
  (∃ i ∈ k.checked, σ.mem.mallocOk i = false) ∨ ¬σ.KernelPointer ∧ σ.StoreFits k

/-- What an Init call does when it has stored the id: it puts the object and its record into
their lists. -/
def insertObject (σ : Kernel) (k : Kind) (hint : ℕ) : Outcome × Kernel :=
  if σ.malloc.1.ok = false then (.ret error, σ.malloc.2)
  else
    let r := reclaimInsert (σ.malloc.2.withObject k hint) k
    if r.1 ≠ 0 then (.ret error, r.2) else (.ret 0, r.2)

variable {σ σ' τ : Kernel} {p : Pid} {o : Outcome} {k : Kind} {hint : ℕ}

/-! ## Putting the object into its list -/

theorem withObject_ne (σ : Kernel) (k : Kind) (hint : ℕ) :
    ¬((σ.withObject k hint).pipes = σ.pipes ∧ (σ.withObject k hint).locks = σ.locks ∧
      (σ.withObject k hint).cvars = σ.cvars) := by
  have hne : ∀ {α : Type} (t : Table α) (x : α), t.alloc hint x ≠ t := by
    intro α t x he
    have hlen := congrArg (fun t : Table α => t.list.length) he
    simp [Table.alloc] at hlen
  rintro ⟨hpipes, hlocks, hcvars⟩
  cases k with
  | pipe => exact hne _ _ hpipes
  | lock => exact hne _ _ hlocks
  | cvar => exact hne _ _ hcvars

@[simp] theorem withObject_mem : (σ.withObject k hint).mem = σ.mem := by
  cases k <;> rfl

theorem reclaimInsert_eq (σ : Kernel) (k : Kind) : σ.reclaimInsert k =
    if σ.mem.malloc.1.ok then
      (0, { σ with reclaimList := σ.reclaimList ++ [⟨σ.newId, k⟩], mem := σ.mem.malloc.2 })
    else (error, { σ with mem := σ.mem.malloc.2 }) := by
  unfold reclaimInsert
  rw [listInsert_last]
  split
  · rfl
  · rfl

theorem insertObject_none (hint : ℕ) (h : σ.mem.mallocOk 0 = false) :
    ∃ τ, σ.insertObject k hint = (.ret error, τ) ∧ SameObjects σ τ := by
  unfold insertObject
  rw [if_pos (by exact h)]
  exact ⟨_, rfl, rfl, rfl, rfl, rfl⟩

/-- The object is in its list when its record does not get a node. -/
theorem insertObject_half (hint : ℕ) (h₀ : σ.mem.mallocOk 0 = true)
    (h₁ : σ.mem.mallocOk 1 = false) :
    ∃ τ, σ.insertObject k hint = (.ret error, τ) ∧ ¬SameObjects σ τ := by
  have hnode : ¬σ.malloc.1.ok = false := fun he => absurd (he.symm.trans h₀) (by simp)
  have hrecord : ¬(σ.malloc.2.withObject k hint).mem.malloc.1.ok = true := by
    rw [withObject_mem]
    exact fun he => absurd (he.symm.trans h₁) (by simp)
  unfold insertObject
  rw [if_neg hnode, reclaimInsert_eq, if_neg hrecord]
  refine ⟨_, rfl, fun hsame => ?_⟩
  exact withObject_ne σ.malloc.2 k hint ⟨hsame.1, hsame.2.1, hsame.2.2.1⟩

theorem insertObject_both (hint : ℕ) (h₀ : σ.mem.mallocOk 0 = true) (h₁ : σ.mem.mallocOk 1 = true) :
    ∃ τ, σ.insertObject k hint = (.ret 0, τ) ∧
      (τ.pipes = (σ.withObject k hint).pipes ∧ τ.locks = (σ.withObject k hint).locks ∧
        τ.cvars = (σ.withObject k hint).cvars) ∧
      τ.reclaimList = σ.reclaimList ++ [⟨σ.newId, k⟩] ∧ ∀ a, τ.wordAt a = σ.wordAt a := by
  have hnode : ¬σ.malloc.1.ok = false := fun he => absurd (he.symm.trans h₀) (by simp)
  have hrecord : (σ.malloc.2.withObject k hint).mem.malloc.1.ok = true := by
    rw [withObject_mem]
    exact h₁
  unfold insertObject
  rw [if_neg hnode, reclaimInsert_eq, if_pos hrecord]
  refine ⟨_, rfl, ?_, ?_, fun a => ?_⟩
  · cases k <;> exact ⟨rfl, rfl, rfl⟩
  · cases k <;> rfl
  · cases k <;> rfl

/-! ## The calls -/

/-- The id is stored the same however much memory is left. -/
theorem storeInt_mem (σ : Kernel) (m : Mem) (a w : Word) :
    ({ σ with mem := m } : Kernel).storeInt a w =
      (σ.storeInt a w).map fun τ => { τ with mem := m } := by
  unfold storeInt copyOut
  rw [Option.map_map, writeBytes_congr (σ := σ) rfl rfl]
  rfl

/-- The state in which an Init call has stored the id. -/
def stored (k : Kind) (m : Mem) (τ : Kernel) : Kernel := { τ with mem := m.afterMallocs k.blocks }

theorem storeId_bind {f g : Kernel → Option (Outcome × Kernel)}
    (h : ∀ τ, f (stored k σ.mem τ) = g τ) :
    (({ σ with mem := σ.mem.afterMallocs k.blocks } : Kernel).storeInt (σ.reg 0)
      (BitVec.ofInt 32 σ.newId)).bind f = σ.storeId.bind g := by
  rw [storeInt_mem, Option.bind_map]
  exact congrArg (Option.bind _) (funext h)

theorem insertObject_some (τ : Kernel) (k : Kind) (hint : ℕ) :
    (if τ.malloc.1.ok = false then some (.ret error, τ.malloc.2)
      else
        let r := reclaimInsert (τ.malloc.2.withObject k hint) k
        some (if r.1 ≠ 0 then (.ret error, r.2) else (.ret 0, r.2))) =
      some (τ.insertObject k hint) := by
  unfold insertObject
  split
  · rfl
  · rfl

/-- What the caller gets when none of the first calls of `malloc` that it looks at fails. -/
def initTail (σ : Kernel) (k : Kind) (hint : ℕ) (τ : Kernel) : Option (Outcome × Kernel) :=
  if (∃ i < k.blocks, σ.mem.mallocOk i = false) ∧ σ.mem.mallocOk k.blocks = true then none
  else some ((stored k σ.mem τ).insertObject k hint)

theorem initTail_all (h : ∀ i < k.blocks, σ.mem.mallocOk i = true) (hint : ℕ) (τ : Kernel) :
    σ.initTail k hint τ = some ((stored k σ.mem τ).insertObject k hint) := by
  refine if_neg ?_
  rintro ⟨⟨i, hi, hfail⟩, -⟩
  exact absurd (hfail.symm.trans (h i hi)) (by simp)

theorem mallocOk_zero {m : Mem} (h : m.mallocOk 0 = true) : ¬m.malloc.1.ok = false :=
  fun he => absurd (he.symm.trans h) (by simp)

theorem sysPipeInit_eq (p : Pid) (h : ∀ i < 4, σ.mem.mallocOk i = true) :
    ∃ hint, σ.sysPipeInit p = σ.storeId.bind (σ.initTail .pipe hint) := by
  have hpipe := mallocOk_zero (m := σ.mem) (h 0 (by decide))
  have hrecord := mallocOk_zero (m := σ.mem.afterMallocs 1) (h 1 (by decide))
  have hbuffer := mallocOk_zero (m := σ.mem.afterMallocs 2) (h 2 (by decide))
  have hhead := mallocOk_zero (m := σ.mem.afterMallocs 3) (h 3 (by decide))
  refine ⟨σ.malloc.1.addr, ?_⟩
  refine (if_neg (not_or.2 ⟨hpipe, hrecord⟩)).trans ?_
  refine (if_neg hbuffer).trans ?_
  refine (if_neg hhead).trans ?_
  apply storeId_bind (k := .pipe)
  intro τ
  exact (insertObject_some _ .pipe _).trans (initTail_all (k := .pipe) h _ τ).symm

theorem sysLockInit_eq (p : Pid) (h : ∀ i < 3, σ.mem.mallocOk i = true) :
    ∃ hint, σ.sysLockInit p = σ.storeId.bind (σ.initTail .lock hint) := by
  have hlock := mallocOk_zero (m := σ.mem) (h 0 (by decide))
  have hrecord := mallocOk_zero (m := σ.mem.afterMallocs 1) (h 1 (by decide))
  have hhead := mallocOk_zero (m := σ.mem.afterMallocs 2) (h 2 (by decide))
  refine ⟨σ.malloc.1.addr, ?_⟩
  refine (if_neg (not_or.2 ⟨hlock, hrecord⟩)).trans ?_
  refine (if_neg hhead).trans ?_
  apply storeId_bind (k := .lock)
  intro τ
  exact (insertObject_some _ .lock _).trans (initTail_all (k := .lock) h _ τ).symm

/-- CvarInit goes on when it has not got the record, and stops at its first use. -/
theorem sysCvarInit_eq (p : Pid) (h₁ : σ.mem.mallocOk 1 = true) (h₂ : σ.mem.mallocOk 2 = true) :
    ∃ hint, σ.sysCvarInit p = σ.storeId.bind (σ.initTail .cvar hint) := by
  have hcvar := mallocOk_zero (m := σ.mem.afterMallocs 1) h₁
  have hhead := mallocOk_zero (m := σ.mem.afterMallocs 2) h₂
  refine ⟨σ.malloc.2.malloc.1.addr, ?_⟩
  refine (if_neg hcvar).trans ?_
  refine (if_neg hhead).trans ?_
  apply storeId_bind (k := .cvar)
  intro τ
  cases hrecord : σ.mem.mallocOk 0 with
  | true =>
      have hall : ∀ i < 3, σ.mem.mallocOk i = true := by
        intro i hi
        match i, hi with
        | 0, _ => exact hrecord
        | 1, _ => exact h₁
        | 2, _ => exact h₂
      refine Eq.trans ?_
        ((insertObject_some _ .cvar _).trans (initTail_all (k := .cvar) hall _ τ).symm)
      dsimp only
      rw [if_pos (show σ.malloc.1.ok = true from hrecord)]
      rfl
  | false =>
      have hnone : ¬σ.malloc.1.ok = true := fun he => absurd (he.symm.trans hrecord) (by simp)
      dsimp only
      rw [if_neg hnone]
      unfold initTail
      cases hnode : σ.mem.mallocOk 3 with
      | true =>
          rw [if_neg (by exact mallocOk_zero (m := σ.mem.afterMallocs 3) hnode)]
          exact (if_pos ⟨⟨0, by decide, hrecord⟩, hnode⟩).symm
      | false =>
          rw [if_pos (by exact hnode), if_neg (fun he => absurd (he.2.symm.trans hnode) (by simp)),
            insertObject, if_pos (by exact hnode)]

/-- An Init call that sees no failure of `malloc` before it stores the id. -/
theorem initCall_of_checked (p : Pid) (h : ∀ i ∈ k.checked, σ.mem.mallocOk i = true) :
    ∃ hint, σ.initCall p k = σ.storeId.bind (σ.initTail k hint) := by
  cases k with
  | pipe =>
      refine sysPipeInit_eq p fun i hi => ?_
      exact h i (by simp only [Kind.checked]; grind)
  | lock =>
      refine sysLockInit_eq p fun i hi => ?_
      exact h i (by simp only [Kind.checked]; grind)
  | cvar => exact sysCvarInit_eq p (h 1 (by decide)) (h 2 (by decide))

/-- One that sees a failure gives up with the lists as they were. -/
theorem initCall_of_failed (p : Pid) (h : ∃ i ∈ k.checked, σ.mem.mallocOk i = false) :
    ∃ τ, σ.initCall p k = some (.ret error, τ) ∧ SameObjects σ τ := by
  have hsame : ∀ m, SameObjects σ ({ σ with mem := m } : Kernel) :=
    fun m => ⟨rfl, rfl, rfl, rfl⟩
  obtain ⟨i, hi, hfail⟩ := h
  cases k with
  | pipe =>
      change ∃ τ, σ.sysPipeInit p = _ ∧ _
      unfold sysPipeInit
      dsimp only
      split
      · exact ⟨_, rfl, hsame _⟩
      · rename_i hfirst
        split
        · exact ⟨_, rfl, hsame _⟩
        · rename_i hbuffer
          have hhead : (σ.mem.afterMallocs 3).malloc.1.ok = false := by
            simp only [Kind.checked, List.mem_cons, List.not_mem_nil, or_false] at hi
            rcases hi with rfl | rfl | rfl | rfl
            · exact absurd (Or.inl hfail) hfirst
            · exact absurd (Or.inr hfail) hfirst
            · exact absurd hfail hbuffer
            · exact hfail
          exact ⟨_, if_pos hhead, hsame _⟩
  | lock =>
      change ∃ τ, σ.sysLockInit p = _ ∧ _
      unfold sysLockInit
      dsimp only
      split
      · exact ⟨_, rfl, hsame _⟩
      · rename_i hfirst
        have hhead : (σ.mem.afterMallocs 2).malloc.1.ok = false := by
          simp only [Kind.checked, List.mem_cons, List.not_mem_nil, or_false] at hi
          rcases hi with rfl | rfl | rfl
          · exact absurd (Or.inl hfail) hfirst
          · exact absurd (Or.inr hfail) hfirst
          · exact hfail
        exact ⟨_, if_pos hhead, hsame _⟩
  | cvar =>
      change ∃ τ, σ.sysCvarInit p = _ ∧ _
      unfold sysCvarInit
      dsimp only
      split
      · exact ⟨_, rfl, hsame _⟩
      · rename_i hcvar
        have hhead : (σ.mem.afterMallocs 2).malloc.1.ok = false := by
          simp only [Kind.checked, List.mem_cons, List.not_mem_nil, or_false] at hi
          rcases hi with rfl | rfl
          · exact absurd hfail hcvar
          · exact hfail
        exact ⟨_, if_pos hhead, hsame _⟩

/-! ## All or nothing -/

theorem stored_mallocOk (k : Kind) (τ : Kernel) (i : ℕ) :
    (stored k σ.mem τ).mem.mallocOk i = σ.mem.mallocOk (k.blocks + i) :=
  σ.mem.afterMallocs_mallocOk k.blocks i

/-- With the id stored, all depends on the memory for the two nodes and, for CvarInit, on the
record. -/
theorem initTail_all_or_nothing (hstore : σ.storeId = some τ)
    (h : σ.initCall p k = σ.initTail k hint τ) :
    AllOrNothing σ p k ↔ σ.mem.mallocOk k.blocks = false ∨
      ∀ i < k.blocks + 2, σ.mem.mallocOk i = true := by
  have hnode := stored_mallocOk (σ := σ) k τ 0
  have hrecord := stored_mallocOk (σ := σ) k τ 1
  have hsome : σ.storeId.isSome = true := by simp [hstore]
  have hid : τ.wordAt (σ.reg 0) = some (BitVec.ofInt 32 σ.newId) := wordAt_storeInt hstore
  obtain ⟨phys, -, rfl⟩ := Option.map_eq_some_iff.1 hstore
  cases h₀ : σ.mem.mallocOk k.blocks with
  | false =>
      have hfits : ¬((∃ i < k.blocks, σ.mem.mallocOk i = false) ∧
          σ.mem.mallocOk k.blocks = true) := by simp [h₀]
      obtain ⟨τ', hτ', hsame⟩ := insertObject_none hint (hnode.trans h₀)
      rw [initTail, if_neg hfits, hτ'] at h
      refine iff_of_true ⟨fun σ' he => ?_, fun _ => ⟨τ', h, hsame⟩⟩ (Or.inl rfl)
      simp [h, error] at he
  | true =>
      have hout : ∀ i < k.blocks + 2, σ.mem.mallocOk i = false → RunsOut σ k :=
        fun i hi hfail => ⟨i, hi, hfail, Or.inr hsome⟩
      by_cases hall : ∀ i < k.blocks, σ.mem.mallocOk i = true
      · rw [initTail_all hall] at h
        cases h₁ : σ.mem.mallocOk (k.blocks + 1) with
        | false =>
            -- the object is in its list, its record is not
            obtain ⟨τ', hτ', hdiffer⟩ :=
              insertObject_half hint (hnode.trans h₀) (hrecord.trans h₁)
            refine iff_of_false (fun hfits => ?_) ?_
            · obtain ⟨σ', he, hsame⟩ := hfits.nothing (hout _ (by omega) h₁)
              rw [h, hτ'] at he
              obtain ⟨-, rfl⟩ := Prod.mk.inj (Option.some.inj he)
              exact hdiffer hsame
            · rintro (hno | hfits)
              · exact absurd hno (by simp)
              · exact absurd (h₁.symm.trans (hfits _ (by omega))) (by simp)
        | true =>
            obtain ⟨τ', hτ', hobject, hrec, hword⟩ :=
              insertObject_both hint (hnode.trans h₀) (hrecord.trans h₁)
            have hevery : ∀ i < k.blocks + 2, σ.mem.mallocOk i = true := by
              intro i hi
              rcases Nat.lt_or_ge i k.blocks with hlt | hge
              · exact hall i hlt
              · obtain rfl | rfl : i = k.blocks ∨ i = k.blocks + 1 := by omega
                · exact h₀
                · exact h₁
            refine iff_of_true ⟨fun σ' he => ?_, ?_⟩ (Or.inr hevery)
            · rw [h, hτ'] at he
              obtain ⟨-, rfl⟩ := Prod.mk.inj (Option.some.inj he)
              refine ⟨⟨hint, ?_⟩, hrec, (hword _).trans hid⟩
              cases k <;> exact hobject
            · rintro ⟨i, hi, hfail, -⟩
              exact absurd (hfail.symm.trans (hevery i hi)) (by simp)
      · -- the record is used, though it was not got
        have hfail : ∃ i < k.blocks, σ.mem.mallocOk i = false := by
          simpa using hall
        rw [initTail, if_pos ⟨hfail, h₀⟩] at h
        obtain ⟨i, hi, hfail⟩ := hfail
        refine iff_of_false (fun hfits => ?_) ?_
        · obtain ⟨σ', he, -⟩ := hfits.nothing (hout i (by omega) hfail)
          rw [h] at he
          exact absurd he (by simp)
        · rintro (hno | hfits)
          · exact absurd hno (by simp)
          · exact absurd (hfail.symm.trans (hfits i (by omega))) (by simp)

/-- An Init call that sees a failure at once is all or nothing. -/
theorem allOrNothing_of_failed (p : Pid) (h : ∃ i ∈ k.checked, σ.mem.mallocOk i = false) :
    AllOrNothing σ p k := by
  obtain ⟨τ, h, hsame⟩ := initCall_of_failed p h
  refine ⟨fun σ' he => ?_, fun _ => ⟨τ, h, hsame⟩⟩
  simp [h, error] at he

/-- One that goes on to store the id is if and only if `StoreFits` holds. -/
theorem allOrNothing_iff_storeFits (p : Pid)
    (hall : ∀ i ∈ k.checked, σ.mem.mallocOk i = true) :
    AllOrNothing σ p k ↔ σ.StoreFits k := by
  obtain ⟨hint, h⟩ := initCall_of_checked p hall
  unfold StoreFits
  cases hstore : σ.storeId with
  | none =>
      rw [hstore, Option.bind_none] at h
      simp only [Option.isSome_none, Bool.false_eq_true, false_and, or_false, true_and]
      constructor
      · intro hfits i hi
        by_contra hfail
        obtain ⟨σ', he, -⟩ := hfits.nothing ⟨i, by omega, by simpa using hfail, Or.inl hi⟩
        rw [h] at he
        exact absurd he (by simp)
      · intro hevery
        refine ⟨fun σ' he => absurd (h.symm.trans he) (by simp), ?_⟩
        rintro ⟨i, -, hfail, hi | hsome⟩
        · exact absurd (hfail.symm.trans (hevery i hi)) (by simp)
        · simp [hstore] at hsome
  | some τ =>
      rw [hstore, Option.bind_some] at h
      rw [initTail_all_or_nothing hstore h]
      simp

/-- An Init call is all or nothing when `InitFits` holds, and for a pointer that is not into the
kernel's own region it is so only then. -/
theorem init_all_or_nothing_iff (σ : Kernel) (p : Pid) (k : Kind) :
    (σ.InitFits k → AllOrNothing σ p k) ∧
      (¬σ.KernelPointer → (AllOrNothing σ p k ↔ σ.InitFits k)) := by
  unfold InitFits
  by_cases hchecked : ∃ i ∈ k.checked, σ.mem.mallocOk i = false
  · have hfits := allOrNothing_of_failed p hchecked
    exact ⟨fun _ => hfits, fun _ => iff_of_true hfits (Or.inl hchecked)⟩
  · have hall : ∀ i ∈ k.checked, σ.mem.mallocOk i = true := by simpa using hchecked
    rw [or_iff_right hchecked, allOrNothing_iff_storeFits p hall]
    exact ⟨fun h => h.2, fun hpointer => (and_iff_right hpointer).symm⟩

/-- A step in which the process that runs makes the Init call for a pipe, with the id to go
to the start of its data, and `malloc` fails in the end. -/
def lastMallocFails : Label :=
  { smallCall .pipeInit vmem1Base 0 0 with
    mallocs := [{}, {}, {}, {}, {}, { ok := false }] }

/-- PipeInit fails for lack of memory, with a pipe in the list that has no record. -/
theorem pipeInit_half : ∃ σ σ', kernelStart smallBoot = some σ ∧
    (σ.callState lastMallocFails).initCall 0 .pipe = some (.ret error, σ') ∧
    σ'.pipes.list.length = σ.pipes.list.length + 1 ∧ σ'.reclaimList = σ.reclaimList ∧
    ¬AllOrNothing (σ.callState lastMallocFails) 0 .pipe := by
  have hrun : ((kernelStart smallBoot).bind fun σ =>
      ((σ.callState lastMallocFails).sysPipeInit 0).map fun r =>
        decide (r.1 = .ret error ∧ r.2.pipes.list.length = σ.pipes.list.length + 1 ∧
          r.2.reclaimList = σ.reclaimList ∧
          (σ.callState lastMallocFails).pipes.list.length = σ.pipes.list.length ∧
          (σ.callState lastMallocFails).mem.mallocOk 5 = false ∧
          (σ.callState lastMallocFails).storeId.isSome = true)) = some true := by
    decide +kernel
  obtain ⟨σ, hσ, hrun⟩ := Option.bind_eq_some_iff.1 hrun
  obtain ⟨⟨o, σ'⟩, hσ', hP⟩ := Option.map_eq_some_iff.1 hrun
  obtain ⟨rfl, hlen, hrecl, hbefore, hfail, hsome⟩ := of_decide_eq_true hP
  refine ⟨σ, σ', hσ, hσ', hlen, hrecl, fun hfits => ?_⟩
  obtain ⟨τ, hτ, hsame⟩ := hfits.nothing ⟨5, by decide, hfail, Or.inr hsome⟩
  obtain ⟨-, rfl⟩ := Prod.mk.inj (Option.some.inj (hσ'.symm.trans hτ))
  have hpipes := congrArg (fun t : Table PipeInfo => t.list.length) hsame.1
  dsimp only at hpipes hlen
  omega

end Kernel

end Yalnix
