import Mathlib.Data.List.Range
import Mathlib.Logic.Function.Basic

/-!
# Overwriting part of a sequence

A memory is a function of the address. `overlay m k bs` is the memory `m` with the list `bs`
written from address `k` on, and `slice m k n` reads `n` values from there.
-/

section Overlay

variable {β : Type*}

/-- The memory `m` after `bs` has been written from `k` on. -/
def overlay (m : ℕ → β) (k : ℕ) (bs : List β) : ℕ → β := fun j =>
  if k ≤ j then bs[j - k]?.getD (m j) else m j

/-- The `n` values from `k` on. -/
def slice (m : ℕ → β) (k n : ℕ) : List β := (List.range n).map fun i => m (k + i)

variable {m m' : ℕ → β} {k k' n n' : ℕ} {b : β} {bs : List β}

@[simp] theorem length_slice (m : ℕ → β) (k n : ℕ) : (slice m k n).length = n := by
  simp [slice]

@[simp] theorem slice_zero (m : ℕ → β) (k : ℕ) : slice m k 0 = [] := rfl

theorem slice_succ (m : ℕ → β) (k n : ℕ) : slice m k (n + 1) = m k :: slice m (k + 1) n := by
  rw [slice, slice, List.range_succ_eq_map, List.map_cons, List.map_map]
  refine congrArg₂ List.cons rfl (List.map_congr_left fun i _ => ?_)
  exact congrArg m (Nat.add_right_comm k i 1)

theorem slice_add (m : ℕ → β) (k n n' : ℕ) :
    slice m k (n + n') = slice m k n ++ slice m (k + n) n' := by
  rw [slice, List.range_add, List.map_append, List.map_map]
  refine congrArg₂ List.append rfl (List.map_congr_left fun i _ => ?_)
  exact congrArg m (Nat.add_assoc k n i).symm

theorem slice_congr (h : ∀ j, k ≤ j → j < k + n → m j = m' j) : slice m k n = slice m' k n := by
  apply List.map_congr_left
  intro i hi
  have hlt := List.mem_range.1 hi
  exact h _ (Nat.le_add_right _ _) (by omega)

@[simp] theorem overlay_nil (m : ℕ → β) (k : ℕ) : overlay m k [] = m := by
  funext j
  simp [overlay]

/-- Writing value after value. -/
theorem overlay_cons [DecidableEq ℕ] (m : ℕ → β) (k : ℕ) (b : β) (bs : List β) :
    overlay m k (b :: bs) = overlay (Function.update m k b) (k + 1) bs := by
  funext j
  unfold overlay
  rcases lt_trichotomy j k with hlt | rfl | hlt
  · rw [if_neg (by omega), if_neg (by omega), Function.update_of_ne (by omega)]
  · rw [if_pos le_rfl, if_neg (by omega), Function.update_self, Nat.sub_self]
    rfl
  · have hsub : j - k = j - (k + 1) + 1 := by omega
    rw [if_pos (by omega), if_pos (by omega), hsub, List.getElem?_cons_succ,
      Function.update_of_ne (by omega)]

/-- Writing leaves the rest alone. -/
theorem overlay_of_apart {j : ℕ} (h : j < k ∨ k + bs.length ≤ j) : overlay m k bs j = m j := by
  unfold overlay
  rcases h with h | h
  · rw [if_neg (by omega)]
  · rw [if_pos (by omega), List.getElem?_eq_none (by omega), Option.getD_none]

/-- What has been written is read. -/
@[simp] theorem slice_overlay_self (m : ℕ → β) (k : ℕ) (bs : List β) :
    slice (overlay m k bs) k bs.length = bs := by
  apply List.ext_getElem
  · rw [length_slice]
  · intro i hi _
    rw [length_slice] at hi
    simp [slice, overlay, hi]

theorem slice_overlay_of_apart (h : k' + n ≤ k ∨ k + bs.length ≤ k') :
    slice (overlay m k bs) k' n = slice m k' n :=
  slice_congr fun j hle hlt => overlay_of_apart (by omega)

/-- The beginning of what has been written is read. -/
theorem slice_overlay_take (m : ℕ → β) (k : ℕ) (h : n ≤ bs.length) :
    slice (overlay m k bs) k n = bs.take n := by
  apply List.ext_getElem
  · rw [length_slice, List.length_take_of_le h]
  · intro i hi _
    rw [length_slice] at hi
    have hlt : i < bs.length := by omega
    simp [slice, overlay, hlt]

end Overlay
