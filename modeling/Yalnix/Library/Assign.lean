import Mathlib.Data.List.Nodup
import Mathlib.Logic.Function.Basic

/-!
# Handing out values to keys

A loop that walks over keys and gives each of them the next value of a supply
leaves the map `assign f ks vs`: the keys `ks` have got the values `vs`, one
after the other, until one of the two lists is used up, and every other key has
what it had in `f`.
-/

section Assign

variable {κ α : Type*} [DecidableEq κ]

/-- The map `f` after the keys have got the values. -/
def assign (f : κ → α) : List κ → List α → κ → α
  | k :: ks, v :: vs => assign (Function.update f k v) ks vs
  | _, _ => f

variable {f : κ → α} {k : κ} {ks : List κ} {v : α} {vs : List α}

@[simp] theorem assign_nil : assign f [] vs = f := rfl

@[simp] theorem assign_nil_right : assign f ks [] = f := by
  cases ks <;> rfl

@[simp] theorem assign_cons :
    assign f (k :: ks) (v :: vs) = assign (Function.update f k v) ks vs := rfl

theorem assign_of_not_mem (h : k ∉ ks) : assign f ks vs k = f k := by
  induction ks generalizing f vs with
  | nil => rfl
  | cons k' ks ih =>
      rw [List.mem_cons, not_or] at h
      cases vs with
      | nil => rfl
      | cons v vs => rw [assign_cons, ih h.2, Function.update_of_ne h.1]

/-- A key that gets a value has one of the values handed out. -/
theorem assign_mem (hlen : ks.length ≤ vs.length) (h : k ∈ ks) :
    assign f ks vs k ∈ vs.take ks.length := by
  induction ks generalizing f vs with
  | nil => exact absurd h List.not_mem_nil
  | cons k' ks ih =>
      cases vs with
      | nil => exact absurd hlen (by simp)
      | cons v vs =>
          rw [List.length_cons, List.length_cons, Nat.add_le_add_iff_right] at hlen
          rw [assign_cons, List.length_cons, List.take_succ_cons, List.mem_cons]
          by_cases hk : k ∈ ks
          · exact Or.inr (ih hlen hk)
          · obtain rfl := (List.mem_cons.1 h).resolve_right hk
            left
            rw [assign_of_not_mem hk, Function.update_self]

/-- The key at position `i` has the value at position `i`. -/
theorem assign_getElem (hks : ks.Nodup) {i : ℕ} (hi : i < ks.length) (hv : i < vs.length) :
    assign f ks vs ks[i] = vs[i] := by
  induction ks generalizing f vs i with
  | nil => exact absurd hi (Nat.not_lt_zero i)
  | cons k ks ih =>
      obtain ⟨hk, hks⟩ := List.nodup_cons.1 hks
      cases vs with
      | nil => exact absurd hv (Nat.not_lt_zero i)
      | cons v vs =>
          cases i with
          | zero => exact (assign_of_not_mem hk).trans (Function.update_self k v f)
          | succ i =>
              exact ih hks (Nat.lt_of_succ_lt_succ hi) (Nat.lt_of_succ_lt_succ hv)

/-- What a key gets when the values are made from it and from a supply. -/
theorem assign_zipWith {β : Type*} {g : κ → β → α} {ws : List β} (hks : ks.Nodup)
    (hlen : ks.length ≤ ws.length) (h : k ∈ ks) :
    ∃ w ∈ ws.take ks.length, assign f ks (List.zipWith g ks ws) k = g k w := by
  obtain ⟨i, hi, rfl⟩ := List.getElem_of_mem h
  have hw : i < ws.length := Nat.lt_of_lt_of_le hi hlen
  have htake : i < (ws.take ks.length).length := by
    rw [List.length_take]
    omega
  refine ⟨ws[i], ?_, ?_⟩
  · have hmem := List.getElem_mem htake
    rwa [List.getElem_take] at hmem
  · rw [assign_getElem hks hi (by rw [List.length_zipWith]; omega), List.getElem_zipWith]

/-- Different keys get different values, if none is handed out twice. -/
theorem assign_inj (hks : ks.Nodup) (hlen : ks.length ≤ vs.length)
    (hvs : (vs.take ks.length).Nodup) {k' : κ} (hk : k ∈ ks) (hk' : k' ∈ ks)
    (h : assign f ks vs k = assign f ks vs k') : k = k' := by
  obtain ⟨i, hi, rfl⟩ := List.getElem_of_mem hk
  obtain ⟨j, hj, rfl⟩ := List.getElem_of_mem hk'
  have hiv : i < (vs.take ks.length).length := by
    rw [List.length_take]
    omega
  have hjv : j < (vs.take ks.length).length := by
    rw [List.length_take]
    omega
  rw [assign_getElem hks hi (Nat.lt_of_lt_of_le hi hlen),
    assign_getElem hks hj (Nat.lt_of_lt_of_le hj hlen)] at h
  have htake : (vs.take ks.length)[i] = (vs.take ks.length)[j] := by
    rwa [List.getElem_take, List.getElem_take]
  obtain rfl := hvs.getElem_inj_iff.1 htake
  rfl

/-- The keys have got the first values, in order. -/
theorem map_assign (hks : ks.Nodup) (hlen : ks.length ≤ vs.length) :
    ks.map (assign f ks vs) = vs.take ks.length := by
  induction ks generalizing f vs with
  | nil => rfl
  | cons k ks ih =>
      obtain ⟨hk, hks⟩ := List.nodup_cons.1 hks
      cases vs with
      | nil => exact absurd hlen (by simp)
      | cons v vs =>
          rw [List.length_cons, List.length_cons, Nat.add_le_add_iff_right] at hlen
          rw [assign_cons, List.map_cons, ih hks hlen, assign_of_not_mem hk, Function.update_self,
            List.length_cons, List.take_succ_cons]

end Assign
