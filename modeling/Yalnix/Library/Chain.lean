import Mathlib.Data.List.Nodup

/-!
# Chains of cells

A heap of linked cells is read through a partial function `next : A → Option A`: the cell at
`a` cannot be read when `next a` is `none`. `Chain next a as b` says that the links lead from
`a` through the cells of `as`, in this order, and on to `b`, which need not be a cell. The
segment `as` is given without its start, so an insertion behind a cell and the removal of the
next one are changes of one link each. `follow next n a` takes `n` links.
-/

variable {A : Type*}

/-- From the cell `a` the links lead through `as`, and from the last of these cells to `b`. -/
def Chain (next : A → Option A) : A → List A → A → Prop
  | a, [], b => next a = some b
  | a, c :: as, b => next a = some c ∧ Chain next c as b

/-- The cell that `n` links lead to from `a`. -/
def follow (next : A → Option A) : ℕ → A → Option A
  | 0, a => some a
  | n + 1, a => (next a).bind fun c => follow next n c

namespace Chain

variable {next next' : A → Option A} {a b c x : A} {as bs : List A} {n : ℕ}

@[simp] theorem nil_iff : Chain next a [] b ↔ next a = some b := Iff.rfl

@[simp] theorem cons_iff : Chain next a (c :: as) b ↔ next a = some c ∧ Chain next c as b :=
  Iff.rfl

/-- Every cell of a chain can be read, and so can its start. -/
theorem isSome (h : Chain next a as b) (hx : x ∈ a :: as) : (next x).isSome := by
  induction as generalizing a with
  | nil =>
      rw [List.mem_singleton.1 hx, nil_iff.1 h]
      rfl
  | cons c as ih =>
      rcases List.mem_cons.1 hx with rfl | hx
      · rw [h.1]
        rfl
      · exact ih h.2 hx

/-- A chain reads no links but those of its start and its cells. -/
theorem congr (h : Chain next a as b) (he : ∀ x ∈ a :: as, next' x = next x) :
    Chain next' a as b := by
  induction as generalizing a with
  | nil => exact (he a List.mem_cons_self).trans h
  | cons c as ih =>
      constructor
      · exact (he a List.mem_cons_self).trans h.1
      · exact ih h.2 fun x hx => he x (List.mem_cons_of_mem a hx)

/-- Along a chain, `n` links lead to its `n`-th cell. -/
theorem follow_eq (h : Chain next a as b) (hn : n ≤ as.length) :
    follow next n a = (a :: as)[n]? := by
  induction n generalizing a as with
  | zero => rfl
  | succ n ih =>
      cases as with
      | nil => exact absurd hn (by simp)
      | cons c as =>
          rw [follow, h.1, Option.bind_some, ih h.2 (by simpa using hn), List.getElem?_cons_succ]

/-- The rest of a chain, from the cell that the links through `as` lead to. -/
theorem rest (h : Chain next a (as ++ bs) b) : ∃ c, follow next as.length a = some c ∧
    c ∈ a :: as ∧ Chain next c bs b := by
  induction as generalizing a with
  | nil => exact ⟨a, rfl, List.mem_cons_self, h⟩
  | cons d as ih =>
      obtain ⟨c, hc, hmem, hrest⟩ := ih h.2
      refine ⟨c, ?_, List.mem_cons_of_mem a hmem, hrest⟩
      rw [List.length_cons, follow, h.1]
      exact hc

/-! ## Changing one link -/

/-- A cell with the link of `c` starts the chain that starts at `c`. -/
theorem of_head (h : Chain next c bs b) (hc : next' a = next c)
    (he : ∀ y ∈ bs, next' y = next y) : Chain next' a bs b := by
  cases bs with
  | nil => exact hc.trans h
  | cons d bs =>
      constructor
      · exact hc.trans h.1
      · exact h.2.congr he

/-- When only the link of the cell behind `as` has changed, the chain leads to that cell and
goes on as the new link does. -/
theorem splice {p : A} {cs : List A} (h : Chain next a (as ++ bs) b)
    (hnodup : (a :: (as ++ bs)).Nodup) (hp : follow next as.length a = some p)
    (he : ∀ y ∈ a :: as, y ≠ p → next' y = next y) (hrest : Chain next' p cs b) :
    Chain next' a (as ++ cs) b := by
  induction as generalizing a with
  | nil =>
      obtain rfl := Option.some.inj hp
      exact hrest
  | cons d as ih =>
      obtain ⟨hlink, htail⟩ := h
      rw [List.length_cons, follow, hlink, Option.bind_some] at hp
      have hnot : a ≠ p := by
        rintro rfl
        obtain ⟨c, hc, hmem, -⟩ := htail.rest
        obtain rfl := Option.some.inj (hp.symm.trans hc)
        exact (List.nodup_cons.1 hnodup).1 (List.mem_append_left bs hmem)
      constructor
      · exact (he a List.mem_cons_self hnot).trans hlink
      · exact ih htail (List.nodup_cons.1 hnodup).2 hp
          fun y hy => he y (List.mem_cons_of_mem a hy)

/-- A new cell `x` goes between `as` and `bs`. -/
theorem insert {p : A} (h : Chain next a (as ++ bs) b) (hnodup : (a :: (as ++ bs)).Nodup)
    (hp : follow next as.length a = some p) (hx : x ∉ a :: (as ++ bs))
    (hlink : next' p = some x) (hback : next' x = next p)
    (he : ∀ y, y ≠ p → y ≠ x → next' y = next y) : Chain next' a (as ++ x :: bs) b := by
  obtain ⟨c, hc, hmem, hrest⟩ := h.rest
  obtain rfl := Option.some.inj (hp.symm.trans hc)
  have hne : ∀ y ∈ a :: (as ++ bs), y ≠ x := fun y hy hyx => hx (hyx ▸ hy)
  -- the cells behind `p` are others
  have hbs : ∀ y ∈ bs, y ≠ p := by
    rintro y hy rfl
    rw [← List.cons_append] at hnodup
    exact List.disjoint_of_nodup_append hnodup hmem hy
  apply h.splice hnodup hp
  · intro y hy hyp
    exact he y hyp (hne y (List.mem_append_left bs hy))
  · refine ⟨hlink, hrest.of_head hback fun y hy => he y (hbs y hy) (hne y ?_)⟩
    exact List.mem_cons_of_mem a (List.mem_append_right as hy)

/-- The cell `x` leaves the chain. -/
theorem remove {p : A} (h : Chain next a (as ++ x :: bs) b)
    (hnodup : (a :: (as ++ x :: bs)).Nodup) (hp : follow next as.length a = some p)
    (hlink : next' p = next x) (he : ∀ y, y ≠ p → next' y = next y) :
    Chain next' a (as ++ bs) b := by
  obtain ⟨c, hc, hmem, hrest⟩ := h.rest
  obtain rfl := Option.some.inj (hp.symm.trans hc)
  have hbs : ∀ y ∈ bs, y ≠ p := by
    rintro y hy rfl
    rw [← List.cons_append] at hnodup
    exact List.disjoint_of_nodup_append hnodup hmem (List.mem_cons_of_mem x hy)
  apply h.splice hnodup hp
  · intro y _ hyp
    exact he y hyp
  · exact hrest.2.of_head hlink fun y hy => he y (hbs y hy)

end Chain
