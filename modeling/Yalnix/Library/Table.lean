import Mathlib.Algebra.GroupWithZero.Nat
import Mathlib.Algebra.Order.BigOperators.Group.List
import Mathlib.Algebra.Order.Group.Nat
import Mathlib.Data.List.Find
import Mathlib.Data.List.Nodup

/-!
# Heap objects kept in a list

A `Table α` is the part of a heap that holds the objects of one type, together
with the list that keeps them: the addresses in list order, none twice, and the
contents of each. An object is found by walking the list, it is read and
written through its address, and an address that has left the table may be
handed out again by `alloc`.

`sum f` adds up `f` over the objects of the table; its lemmas say what each
operation does to it.
-/

/-- The objects of one type that a list of pointers keeps. -/
structure Table (α : Type*) where
  list : List ℕ
  nodup : list.Nodup
  cell : ℕ → α

namespace Table

variable {α : Type*}

/-- No objects; what the cells hold does not matter. -/
def empty [Inhabited α] : Table α := ⟨[], List.nodup_nil, fun _ => default⟩

instance [Inhabited α] : Inhabited (Table α) := ⟨empty⟩

/-- The address of the first object with the property `p`. -/
def find? (t : Table α) (p : α → Bool) : Option ℕ :=
  t.list.find? fun a => p (t.cell a)

/-- Some object has the property `p`. -/
def any (t : Table α) (p : α → Bool) : Bool := t.list.any fun a => p (t.cell a)

/-- A write through the address `a`; a dangling one changes nothing here. -/
def write (t : Table α) (a : ℕ) (x : α) : Table α :=
  { t with cell := if a ∈ t.list then Function.update t.cell a x else t.cell }

/-- The address `hint` when no object has it, else one beyond them all. -/
def fresh (t : Table α) (hint : ℕ) : ℕ :=
  if hint ∈ t.list then t.list.sum + 1 else hint

theorem fresh_not_mem (t : Table α) (hint : ℕ) : t.fresh hint ∉ t.list := by
  unfold fresh
  split
  · intro h
    have hle := List.le_sum_of_mem h
    omega
  · assumption

/-- A new object at the end of the list. -/
def alloc (t : Table α) (hint : ℕ) (x : α) : Table α where
  list := t.list ++ [t.fresh hint]
  nodup := by
    rw [← List.concat_eq_append]
    exact t.nodup.concat (t.fresh_not_mem hint)
  cell := Function.update t.cell (t.fresh hint) x

/-- The object at `a` leaves the list. -/
def free (t : Table α) (a : ℕ) : Table α :=
  { t with list := t.list.erase a, nodup := t.nodup.erase a }

/-- The sum of `f` over the objects. -/
def sum (t : Table α) (f : α → ℕ) : ℕ := (t.list.map fun a => f (t.cell a)).sum

/-! ## Finding an object -/

theorem mem_of_find? {t : Table α} {p : α → Bool} {a : ℕ} (h : t.find? p = some a) :
    a ∈ t.list := List.mem_of_find?_eq_some h

theorem prop_of_find? {t : Table α} {p : α → Bool} {a : ℕ} (h : t.find? p = some a) :
    p (t.cell a) = true := List.find?_some (p := fun a => p (t.cell a)) h

theorem find?_eq_none {t : Table α} {p : α → Bool} :
    t.find? p = none ↔ ∀ a ∈ t.list, p (t.cell a) = false := by
  simp [find?]

theorem any_eq_true {t : Table α} {p : α → Bool} :
    t.any p = true ↔ ∃ a ∈ t.list, p (t.cell a) = true := by
  simp [any]

/-- Tables that agree on their lists and on what `p` reads find the same object. -/
theorem find?_congr {t u : Table α} {p : α → Bool} (hlist : u.list = t.list)
    (hcell : ∀ a, p (u.cell a) = p (t.cell a)) : u.find? p = t.find? p := by
  unfold find?
  rw [hlist]
  exact List.find?_congr fun a _ => hcell a

theorem any_congr {t u : Table α} {p : α → Bool} (hlist : u.list = t.list)
    (hcell : ∀ a, p (u.cell a) = p (t.cell a)) : u.any p = t.any p := by
  unfold any
  simp [hlist, hcell]

/-- The first object found before an allocation is the first one after it. -/
theorem find?_alloc_of_some {t : Table α} {p : α → Bool} {a : ℕ} (hint : ℕ) (x : α)
    (h : t.find? p = some a) : (t.alloc hint x).find? p = some a := by
  have hcell : ∀ b ∈ t.list, (t.alloc hint x).cell b = t.cell b := by
    intro b hb
    have hne : b ≠ t.fresh hint := fun e => t.fresh_not_mem hint (e ▸ hb)
    simp [alloc, hne]
  have hfind : t.list.find? (fun b => p ((t.alloc hint x).cell b)) = some a := by
    rw [← h]
    unfold find?
    apply List.find?_congr
    intro b hb
    rw [hcell b hb]
  change (t.list ++ [t.fresh hint]).find? _ = _
  rw [List.find?_append, hfind]
  rfl

/-! ## Reading after an operation -/

theorem cell_write_self {t : Table α} {a : ℕ} (h : a ∈ t.list) (x : α) :
    (t.write a x).cell a = x := by
  simp [write, h]

theorem cell_write_of_ne {t : Table α} {a b : ℕ} (h : b ≠ a) (x : α) :
    (t.write a x).cell b = t.cell b := by
  unfold write
  dsimp only
  split
  · simp [h]
  · rfl

/-- Writing back what is there changes nothing. -/
theorem write_self (t : Table α) (a : ℕ) : t.write a (t.cell a) = t := by
  by_cases h : a ∈ t.list <;> simp [write, h]

/-- Of two writes through one address the second stays. -/
theorem write_write (t : Table α) (a : ℕ) (x y : α) : (t.write a x).write a y = t.write a y := by
  by_cases h : a ∈ t.list <;> simp [write, h]

theorem write_of_not_mem {t : Table α} {a : ℕ} (h : a ∉ t.list) (x : α) :
    t.write a x = t := by
  simp [write, h]

/-- A write that leaves `g` as it was at its address leaves it everywhere. -/
theorem cell_write_congr {β : Type*} {t : Table α} {a : ℕ} {x : α} (g : α → β)
    (h : g x = g (t.cell a)) (b : ℕ) : g ((t.write a x).cell b) = g (t.cell b) := by
  by_cases hb : b = a
  · subst hb
    by_cases hm : b ∈ t.list
    · rw [cell_write_self hm, h]
    · rw [write_of_not_mem hm]
  · rw [cell_write_of_ne hb]

@[simp] theorem list_write (t : Table α) (a : ℕ) (x : α) : (t.write a x).list = t.list := rfl

@[simp] theorem list_alloc (t : Table α) (hint : ℕ) (x : α) :
    (t.alloc hint x).list = t.list ++ [t.fresh hint] := rfl

@[simp] theorem list_free (t : Table α) (a : ℕ) : (t.free a).list = t.list.erase a := rfl

@[simp] theorem cell_free (t : Table α) (a : ℕ) : (t.free a).cell = t.cell := rfl

theorem cell_alloc_self (t : Table α) (hint : ℕ) (x : α) :
    (t.alloc hint x).cell (t.fresh hint) = x := by
  simp [alloc]

theorem cell_alloc_of_mem {t : Table α} {a : ℕ} (h : a ∈ t.list) (hint : ℕ) (x : α) :
    (t.alloc hint x).cell a = t.cell a := by
  have hne : a ≠ t.fresh hint := fun e => t.fresh_not_mem hint (e ▸ h)
  simp [alloc, hne]

/-- The table `u` is `t`, or `t` without one object. -/
def Frees (t u : Table α) : Prop := u = t ∨ ∃ b, u = t.free b

/-- What is left has not changed. -/
theorem Frees.keeps {t u : Table α} (h : t.Frees u) {a : ℕ} (ha : a ∈ u.list) :
    a ∈ t.list ∧ u.cell a = t.cell a := by
  rcases h with rfl | ⟨b, rfl⟩
  · exact ⟨ha, rfl⟩
  · exact ⟨List.mem_of_mem_erase ha, rfl⟩

/-- What an operation can do to the keys that `g` reads off the objects: leave them, add an
object whose key meets `P`, or, where `r` allows it, let one leave. -/
inductive Rekeys {β : Type*} (g : α → β) (P : β → Prop) (r : Prop) (t u : Table α) : Prop
  | same (hlist : u.list = t.list) (hkey : ∀ a, g (u.cell a) = g (t.cell a))
  | alloc (hint : ℕ) (x : α) (hx : P (g x)) (hu : u = t.alloc hint x)
  | free (hr : r) (h : t.Frees u)

namespace Rekeys

variable {β : Type*} {g : α → β} {P : β → Prop} {r : Prop} {t u : Table α}

theorem of_eq (h : u = t) : Rekeys g P r t u := .same (by rw [h]) fun a => by rw [h]

/-- Keys that meet `P` do so after the operation. -/
theorem forall_key (h : Rekeys g P r t u) (ht : ∀ a ∈ t.list, P (g (t.cell a))) :
    ∀ a ∈ u.list, P (g (u.cell a)) := by
  intro a ha
  cases h with
  | same hlist hkey =>
      rw [hkey]
      exact ht a (hlist ▸ ha)
  | alloc hint x hx hu =>
      subst hu
      rcases List.mem_append.1 ha with hm | hm
      · rw [cell_alloc_of_mem hm]
        exact ht a hm
      · obtain rfl := List.mem_singleton.1 hm
        rw [cell_alloc_self]
        exact hx
  | free _ hf =>
      rw [(hf.keeps ha).2]
      exact ht a (hf.keeps ha).1

/-- As long as no object leaves, the first object with a key stays the first one. -/
theorem find?_of_some [DecidableEq β] (h : Rekeys g P r t u) (hr : ¬r) {k : β} {a : ℕ}
    (hfind : t.find? (fun x => g x = k) = some a) : u.find? (fun x => g x = k) = some a := by
  cases h with
  | same hlist hkey =>
      rw [← hfind]
      exact find?_congr hlist fun b => by rw [hkey b]
  | alloc hint x _ hu =>
      rw [hu]
      exact find?_alloc_of_some hint x hfind
  | free h => exact absurd h hr

end Rekeys

/-- The columns of a table: what `g` reads off each object, in list order. -/
def column {β : Type*} (t : Table α) (g : α → β) : List β := t.list.map fun a => g (t.cell a)

/-- A write that leaves `g` as it was leaves the column of `g` as it was. -/
theorem column_write {β : Type*} {t : Table α} {g : α → β} {a : ℕ} {x : α}
    (h : g x = g (t.cell a)) : (t.write a x).column g = t.column g := by
  apply List.map_congr_left
  intro b _
  exact cell_write_congr g h b

theorem column_alloc {β : Type*} (t : Table α) (g : α → β) (hint : ℕ) (x : α) :
    (t.alloc hint x).column g = t.column g ++ [g x] := by
  unfold column
  rw [list_alloc, List.map_append, List.map_singleton, cell_alloc_self]
  congr 1
  apply List.map_congr_left
  intro b hb
  rw [cell_alloc_of_mem hb]

/-- Where keys are distinct, an object that leaves takes its key out of the column. -/
theorem column_free {β : Type*} [DecidableEq β] {t : Table α} {g : α → β}
    (hkeys : (t.column g).Nodup) {a : ℕ} (ha : a ∈ t.list) :
    (t.free a).column g = (t.column g).filter fun k => k ≠ g (t.cell a) := by
  have hinj := List.inj_on_of_nodup_map hkeys
  unfold column
  rw [list_free, cell_free, t.nodup.erase_eq_filter, List.filter_map]
  congr 1
  apply List.filter_congr
  intro b hb
  by_cases hba : b = a
  · simp [hba]
  · have hne : g (t.cell b) ≠ g (t.cell a) := fun he => hba (hinj hb ha he)
    simp [hba, hne]

/-! ## Sums over a table -/

theorem sum_free {t : Table α} {a : ℕ} (h : a ∈ t.list) (f : α → ℕ) :
    (t.free a).sum f + f (t.cell a) = t.sum f := by
  have hs := List.sum_map_erase (fun b => f (t.cell b)) h
  unfold sum
  rw [list_free, cell_free, add_comm]
  exact hs

theorem sum_alloc (t : Table α) (hint : ℕ) (x : α) (f : α → ℕ) :
    (t.alloc hint x).sum f = t.sum f + f x := by
  change ((t.alloc hint x).column f).sum = (t.column f).sum + f x
  rw [column_alloc, List.sum_append, List.sum_singleton]

theorem sum_write {t : Table α} {a : ℕ} (h : a ∈ t.list) (x : α) (f : α → ℕ) :
    (t.write a x).sum f + f (t.cell a) = t.sum f + f x := by
  have hrest : ((t.list.erase a).map fun b => f ((t.write a x).cell b)) =
      (t.list.erase a).map fun b => f (t.cell b) := by
    apply List.map_congr_left
    intro b hb
    have hne : b ≠ a := fun e => t.nodup.not_mem_erase (e ▸ hb)
    rw [cell_write_of_ne hne]
  have hnew := List.sum_map_erase (fun b => f ((t.write a x).cell b)) h
  have hold := List.sum_map_erase (fun b => f (t.cell b)) h
  rw [hrest, cell_write_self h] at hnew
  change (t.list.map fun b => f ((t.write a x).cell b)).sum + _ =
    (t.list.map fun b => f (t.cell b)).sum + _
  omega

/-- A write that leaves `f` as it was leaves the sum of `f` as it was. -/
theorem sum_write_of_eq {t : Table α} {a : ℕ} {x : α} {f : α → ℕ}
    (h : f x = f (t.cell a)) : (t.write a x).sum f = t.sum f :=
  congrArg List.sum (column_write h)

theorem le_sum {t : Table α} {a : ℕ} (h : a ∈ t.list) (f : α → ℕ) : f (t.cell a) ≤ t.sum f :=
  List.le_sum_of_mem (List.mem_map_of_mem h)

end Table
