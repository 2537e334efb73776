import Mathlib.Data.List.Basic

/-!
# Alarms

Alarms are set one after the other, each for a time and with a value. `pending` are those
that are still to come, with the time that is left, and `due` those that go off now. Both
keep the order in which the alarms were set, so a clock that counts down what is pending
does not have to know the time.
-/

namespace Alarm

variable {α : Type*}

/-- The alarms that are still to come at time `now`, with the time that is left. -/
def pending (now : ℕ) (set : List (ℕ × α)) : List (ℕ × α) :=
  (set.filter fun a => now < a.1).map fun a => (a.1 - now, a.2)

/-- The values of the alarms that go off at time `now`. -/
def due (now : ℕ) (set : List (ℕ × α)) : List α :=
  (set.filter fun a => a.1 = now).map Prod.snd

/-- Another alarm is pending behind the others. -/
theorem pending_set {k : ℕ} (hk : 0 < k) (now : ℕ) (set : List (ℕ × α)) (x : α) :
    pending now (set ++ [(now + k, x)]) = pending now set ++ [(k, x)] := by
  have hlt : now < now + k := by omega
  simp [pending, hlt]

/-- A tick takes one off what is left, and the alarms with no time left are gone. -/
theorem pending_tick (now : ℕ) (set : List (ℕ × α)) :
    pending (now + 1) set =
      ((pending now set).filter fun a => 1 < a.1).map fun a => (a.1 - 1, a.2) := by
  induction set with
  | nil => rfl
  | cons a set ih =>
      unfold pending at ih ⊢
      rcases Nat.lt_trichotomy a.1 (now + 1) with hlt | heq | hgt
      · have hnow : ¬now < a.1 := by omega
        have hnext : ¬now + 1 < a.1 := by omega
        simpa [hnow, hnext] using ih
      · have hnow : now < a.1 := by omega
        have hnext : ¬now + 1 < a.1 := by omega
        have hleft : ¬1 < a.1 - now := by omega
        simpa [hnow, hnext, hleft] using ih
      · have hnow : now < a.1 := by omega
        have hleft : 1 < a.1 - now := by omega
        have hsub : a.1 - (now + 1) = a.1 - now - 1 := by omega
        simpa [hnow, hgt, hleft, hsub] using ih

/-- What goes off with a tick is what had one tick left. -/
theorem due_tick (now : ℕ) (set : List (ℕ × α)) :
    due (now + 1) set = ((pending now set).filter fun a => a.1 ≤ 1).map Prod.snd := by
  induction set with
  | nil => rfl
  | cons a set ih =>
      unfold due pending at ih ⊢
      rcases Nat.lt_trichotomy a.1 (now + 1) with hlt | heq | hgt
      · have hnow : ¬now < a.1 := by omega
        have hne : a.1 ≠ now + 1 := by omega
        simpa [hnow, hne] using ih
      · have hnow : now < a.1 := by omega
        have hleft : a.1 - now ≤ 1 := by omega
        simpa [hnow, heq, hleft] using ih
      · have hnow : now < a.1 := by omega
        have hne : a.1 ≠ now + 1 := by omega
        have hleft : ¬a.1 - now ≤ 1 := by omega
        simpa [hnow, hne, hleft] using ih

end Alarm
