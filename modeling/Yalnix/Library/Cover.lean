import Mathlib.Algebra.BigOperators.Group.List.Basic
import Mathlib.Algebra.GroupWithZero.Nat
import Mathlib.Data.Int.ConditionallyCompleteOrder
import Mathlib.Data.Int.Interval
import Mathlib.Order.Interval.Finset.SuccPred

/-!
# Covering an interval with runs

A run is an interval of integers, given by its start and its length. Whether runs that do not
meet cover an interval is a matter of counting: they do when they share as many integers with
it as it has.
-/

section Cover

/-- `i` lies in the run `r`. -/
def InRun (r : Int × ℕ) (i : Int) : Prop := r.1 ≤ i ∧ i < r.1 + r.2

instance (r : Int × ℕ) (i : Int) : Decidable (InRun r i) := inferInstanceAs (Decidable (_ ∧ _))

/-- How many integers of `r` there are from `a` on and below `b`. -/
def shared (a b : Int) (r : Int × ℕ) : ℕ := (min b (r.1 + r.2) - max a r.1).toNat

variable {a b : Int} {rs : List (Int × ℕ)}

theorem inRun_apart_iff {r r' : Int × ℕ} : (∀ i, InRun r i → ¬InRun r' i) ↔
    r.2 = 0 ∨ r'.2 = 0 ∨ r.1 + r.2 ≤ r'.1 ∨ r'.1 + r'.2 ≤ r.1 := by
  unfold InRun
  constructor
  · intro h
    have hmeet := h (max r.1 r'.1)
    omega
  · intro h i hi
    omega

theorem inRun_below_iff {r : Int × ℕ} {n : Int} (hr : 0 ≤ r.1) :
    (∀ i, InRun r i → 0 ≤ i ∧ i < n) ↔ r.2 = 0 ∨ r.1 + r.2 ≤ n := by
  unfold InRun
  constructor
  · intro h
    have hlast := h (r.1 + r.2 - 1)
    omega
  · intro h i hi
    omega

theorem card_shared (a b : Int) (r : Int × ℕ) :
    ((Finset.Ico a b).filter (InRun r)).card = shared a b r := by
  have hico : (Finset.Ico a b).filter (InRun r) = Finset.Ico (max a r.1) (min b (r.1 + r.2)) := by
    ext i
    rw [Finset.mem_filter, Finset.mem_Ico, Finset.mem_Ico, InRun]
    omega
  rw [hico, Int.card_Ico, shared]

/-- Runs that do not meet share what each of them shares. -/
theorem card_inRun (hrs : rs.Pairwise fun r r' => ∀ i, InRun r i → ¬InRun r' i) :
    ((Finset.Ico a b).filter fun i => ∃ r ∈ rs, InRun r i).card = (rs.map (shared a b)).sum := by
  induction rs with
  | nil => simp
  | cons r rs ih =>
      obtain ⟨hr, hrs⟩ := List.pairwise_cons.1 hrs
      have hsplit : ((Finset.Ico a b).filter fun i => ∃ r' ∈ r :: rs, InRun r' i) =
          (Finset.Ico a b).filter (InRun r) ∪
            (Finset.Ico a b).filter fun i => ∃ r' ∈ rs, InRun r' i := by
        ext i
        simp only [List.mem_cons, exists_eq_or_imp, Finset.mem_filter, Finset.mem_union]
        tauto
      rw [hsplit, Finset.card_union_of_disjoint, card_shared, ih hrs, List.map_cons, List.sum_cons]
      apply Finset.disjoint_filter.2
      rintro i - hi ⟨r', hr', hi'⟩
      exact hr r' hr' i hi hi'

/-- Runs that do not meet cover an interval if and only if they share as many integers with it
as it has. -/
theorem covered_iff (hrs : rs.Pairwise fun r r' => ∀ i, InRun r i → ¬InRun r' i) :
    (∀ i, a ≤ i → i < b → ∃ r ∈ rs, InRun r i) ↔ (rs.map (shared a b)).sum = (b - a).toNat := by
  rw [← card_inRun hrs, ← Int.card_Ico, Finset.card_filter_eq_iff]
  simp only [Finset.mem_Ico, and_imp]

end Cover
