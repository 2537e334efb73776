import Mathlib.Algebra.BigOperators.Group.List.Basic
import Mathlib.Algebra.GroupWithZero.Nat
import Mathlib.Data.List.Nodup

/-!
# Moving resources between a pool and its holders

How often a resource is anywhere is how often it is in the pool, plus the sum over all
holders of how often each of them has it. Where one holder changes, the whole does not grow
if what that holder and the pool have together does not.
-/

section Ledger

variable {κ : Type*} [DecidableEq κ] {s : κ → ℕ} {k : κ} {ks : List κ} {n a a' : ℕ}

theorem sum_map_update_of_not_mem (hk : k ∉ ks) :
    (ks.map (Function.update s k n)).sum = (ks.map s).sum := by
  congr 1
  apply List.map_congr_left
  intro i hi
  rw [Function.update_of_ne]
  rintro rfl
  exact hk hi

/-- The sum when one of the holders has `n`. -/
theorem sum_map_update (hks : ks.Nodup) (hk : k ∈ ks) :
    (ks.map (Function.update s k n)).sum + s k = (ks.map s).sum + n := by
  have hnot : k ∉ ks.erase k := hks.not_mem_erase
  have hnew := List.sum_map_erase (Function.update s k n) hk
  have hold := List.sum_map_erase s hk
  rw [Function.update_self, sum_map_update_of_not_mem hnot] at hnew
  omega

/-- One holder and the pool exchange what they have. -/
theorem sum_map_move (hks : ks.Nodup) (hpool : k ∉ ks → a' ≤ a) (h : a' + n ≤ a + s k) :
    a' + (ks.map (Function.update s k n)).sum ≤ a + (ks.map s).sum := by
  by_cases hk : k ∈ ks
  · have hsum := sum_map_update (s := s) (n := n) hks hk
    omega
  · rw [sum_map_update_of_not_mem hk]
    exact Nat.add_le_add_right (hpool hk) _

/-- The whole stays the same if and only if what that holder and the pool have together does. -/
theorem sum_map_move_iff (hks : ks.Nodup) (hk : k ∈ ks) :
    a' + (ks.map (Function.update s k n)).sum = a + (ks.map s).sum ↔ a' + n = a + s k := by
  have hsum := sum_map_update (s := s) (n := n) hks hk
  omega

/-- What one of the holders has is not elsewhere, if the whole is at most one. -/
theorem sum_map_alone (h : a + (ks.map s).sum ≤ 1) (hk : k ∈ ks)
    (hpos : 0 < s k) : a = 0 ∧ s k = 1 ∧ ∀ j ∈ ks, j ≠ k → s j = 0 := by
  have hsum := List.sum_map_erase s hk
  refine ⟨by omega, by omega, fun j hj hne => ?_⟩
  have hmem : j ∈ ks.erase k := (List.mem_erase_of_ne hne).2 hj
  have hrest := List.sum_map_erase s hmem
  omega

end Ledger
