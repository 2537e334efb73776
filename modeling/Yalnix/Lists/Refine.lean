import Yalnix.Lists.Sequence
import Yalnix.Model.Memory

/-!
# Linked lists refine sequences

`Repr s ns xs` relates a collection of lists to sequences: list `i` has the nodes `ns i` with
the data `xs i`, and no node is in two lists or in a list from which it has been removed. Every
call keeps the relation, so in every state that calls lead to, each of them has the effect of
the operation on sequences that it stands for, on its list and on no other. The functions with
which the kernel model keeps its queues are these operations.
-/

namespace Yalnix

open Transition

/-- What a call does to the sequences that the lists stand for. -/
def ListOp.onSeqs {ι D : Type*} [DecidableEq ι] (xs : ι → List D) : ListOp ι D → ι → List D
  | .create i _ _ => Function.update xs i []
  | .insert i location data node _ =>
      if node = 0 ∨ location > (xs i).length + 1 ∨ location < 1 then xs
      else Function.update xs i ((xs i).insertIdx (location - 1).toNat data)
  | .remove i location =>
      if location > (xs i).length ∨ location < 1 then xs
      else Function.update xs i ((xs i).eraseIdx (location - 1).toNat)
  | .index _ _ => xs
  | .free _ => xs

namespace Lists

variable {ι D : Type*} {s s' : Lists ι D} {ns : ι → List ℕ} {xs : ι → List D}
  {i j : ι} {lst : LinkedList} {a : ℕ} {d : D} {block : Node D} {location : Int}
  {op : ListOp ι D} {r : ListResult}

/-- The node at `a` is the head of list `i`, or one of `ns i`. -/
def Owns (s : Lists ι D) (ns : ι → List ℕ) (i : ι) (a : ℕ) : Prop :=
  ∃ lst, s.list i = some lst ∧ a ∈ lst.head :: ns i

/-- List `i` consists of the nodes `ns i`, which hold the data `xs i`; lists have no nodes in
common. -/
structure Repr (s : Lists ι D) (ns : ι → List ℕ) (xs : ι → List D) : Prop where
  holds : ∀ i lst, s.list i = some lst →
    ∃ block, s.initial i = some block ∧ s.heap.Holds lst (ns i) (xs i) block.next
  apart : ∀ i j a, s.Owns ns i a → s.Owns ns j a → i = j
  once : s.removed.Nodup
  removed : ∀ a ∈ s.removed, (s.heap a).isSome ∧ ∀ i, ¬s.Owns ns i a

theorem owns_iff (hi : s.list i = some lst) : s.Owns ns i a ↔ a ∈ lst.head :: ns i := by
  constructor
  · rintro ⟨lst', hi', ha⟩
    obtain rfl := Option.some.inj (hi.symm.trans hi')
    exact ha
  · intro ha
    exact ⟨lst, hi, ha⟩

theorem Repr.isSome (hr : s.Repr ns xs) (ha : s.Owns ns i a) : (s.heap a).isSome := by
  obtain ⟨lst, hi, ha⟩ := ha
  obtain ⟨block, -, hl⟩ := hr.holds i lst hi
  exact hl.isSome ha

/-- A fresh block is in no list, and has not been removed from one. -/
theorem Repr.not_owns (hr : s.Repr ns xs) (ha : s.heap a = none) : ¬s.Owns ns i a := by
  intro hown
  have := hr.isSome hown
  rw [ha] at this
  exact absurd this (by simp)

theorem Repr.not_removed (hr : s.Repr ns xs) (ha : s.heap a = none) : a ∉ s.removed := by
  intro hmem
  have := (hr.removed a hmem).1
  rw [ha] at this
  exact absurd this (by simp)

theorem Repr.length (hr : s.Repr ns xs) (hi : s.list i = some lst) :
    lst.len = (xs i).length := by
  obtain ⟨b, -, hl⟩ := hr.holds i lst hi
  rw [hl.length, hl.len]

variable [DecidableEq ι]

namespace Repr

/-- Only list `i` changes: it keeps its head, its new nodes are old ones or `a`, which had been
free, and no node of another list is written. -/
theorem change {h' : NodeHeap D} {lst' : LinkedList} {ns' : List ℕ} {xs' : List D}
    {removed' : List ℕ} (hr : s.Repr ns xs) (hi : s.list i = some lst)
    (hl' : ∀ block, s.initial i = some block → h'.Holds lst' ns' xs' block.next)
    (hhead : lst'.head = lst.head)
    (hns : ∀ y ∈ ns', y ∈ ns i ∨ ∀ j, ¬s.Owns ns j y)
    (he : ∀ j y, s.Owns ns j y → j ≠ i → h' y = s.heap y)
    (honce : removed'.Nodup)
    (hrem : ∀ y ∈ removed', (h' y).isSome ∧ y ∉ lst.head :: ns' ∧ ∀ j, j ≠ i → ¬s.Owns ns j y) :
    Repr ⟨h', Function.update s.list i (some lst'), removed', s.initial⟩
      (Function.update ns i ns') (Function.update xs i xs') := by
  -- who owns a node afterwards
  have hself : ∀ y, Owns ⟨h', Function.update s.list i (some lst'), removed', s.initial⟩
      (Function.update ns i ns') i y → y ∈ lst.head :: ns' := by
    rintro y ⟨l, hl, hy⟩
    dsimp only at hl
    rw [Function.update_self] at hl hy
    obtain rfl := Option.some.inj hl
    rwa [hhead] at hy
  have hother : ∀ j y, j ≠ i → Owns ⟨h', Function.update s.list i (some lst'), removed',
      s.initial⟩ (Function.update ns i ns') j y → s.Owns ns j y := by
    rintro j y hj ⟨l, hl, hy⟩
    dsimp only at hl
    rw [Function.update_of_ne hj] at hl hy
    exact ⟨l, hl, hy⟩
  have hold : ∀ j y, y ∈ lst.head :: ns' → s.Owns ns j y → j = i := by
    intro j y hy hown
    rcases List.mem_cons.1 hy with rfl | hy
    · exact hr.apart j i _ hown ⟨lst, hi, List.mem_cons_self⟩
    · rcases hns y hy with hy | hy
      · exact hr.apart j i y hown ⟨lst, hi, List.mem_cons_of_mem _ hy⟩
      · exact absurd hown (hy j)
  constructor
  · intro j l hl
    dsimp only at hl ⊢
    by_cases hj : j = i
    · subst hj
      rw [Function.update_self] at hl ⊢
      rw [Function.update_self]
      obtain rfl := Option.some.inj hl
      obtain ⟨block, hb, -⟩ := hr.holds j lst hi
      exact ⟨block, hb, hl' block hb⟩
    · rw [Function.update_of_ne hj] at hl ⊢
      rw [Function.update_of_ne hj]
      obtain ⟨block, hb, hholds⟩ := hr.holds j l hl
      exact ⟨block, hb, hholds.congr fun y hy => he j y ⟨l, hl, hy⟩ hj⟩
  · intro j k y hjy hky
    by_cases hj : j = i
    · subst hj
      by_cases hk : k = j
      · exact hk.symm
      · exact (hold k y (hself y hjy) (hother k y hk hky)).symm
    · by_cases hk : k = i
      · subst hk
        exact hold j y (hself y hky) (hother j y hj hjy)
      · exact hr.apart j k y (hother j y hj hjy) (hother k y hk hky)
  · exact honce
  · intro y hy
    obtain ⟨hsome, hnot, hothers⟩ := hrem y hy
    refine ⟨hsome, fun j hown => ?_⟩
    by_cases hj : j = i
    · subst hj
      exact hnot (hself y hown)
    · exact hothers j hj (hother j y hj hown)

/-! ## The calls -/

/-- `list_insert` at a position in the list or behind its end. -/
theorem insert (hr : s.Repr ns xs) (d : D) (block : Node D) (hi : s.list i = some lst)
    (ha : s.Fresh a) (h₁ : 1 ≤ location) (h₂ : location ≤ lst.len + 1) : ∃ t,
    s.act (.insert i location d a block) = some (.code 0, t) ∧
    t.Repr (Function.update ns i ((ns i).insertIdx (location - 1).toNat a))
      (Function.update xs i ((xs i).insertIdx (location - 1).toNat d)) ∧
    ∀ j, j ≠ i → t.list j = s.list j := by
  obtain ⟨hne, hnone⟩ := ha
  rw [Option.isNone_iff_eq_none] at hnone
  obtain ⟨b, hb, hl⟩ := hr.holds i lst hi
  obtain ⟨h', hrun, hl', he⟩ := hl.listInsert d block hne hnone h₁ h₂
  refine ⟨⟨h', Function.update s.list i (some ⟨lst.head, lst.len + 1⟩), s.removed, s.initial⟩, ?_,
    hr.change hi ?_ rfl ?_ ?_ hr.once ?_, ?_⟩
  · rw [act, if_pos (.inr ⟨hne, by rw [hnone]; rfl⟩), hi, Option.bind_some, hrun]
    rfl
  · intro b' hb'
    obtain rfl := Option.some.inj (hb.symm.trans hb')
    exact hl'
  · intro y hy
    rcases List.eq_or_mem_of_mem_insertIdx hy with rfl | hy
    · exact .inr fun j => hr.not_owns hnone
    · exact .inl hy
  · intro j y hown hj
    apply he y
    · intro hy
      exact hj (hr.apart j i y hown ⟨lst, hi, hy⟩)
    · rintro rfl
      exact hr.not_owns hnone hown
  · intro y hy
    obtain ⟨hsome, hout⟩ := hr.removed y hy
    have hya : y ≠ a := by
      rintro rfl
      exact hr.not_removed hnone hy
    have hyi : y ∉ lst.head :: ns i := fun hmem => hout i ⟨lst, hi, hmem⟩
    refine ⟨by rwa [he y hyi hya], fun hmem => ?_, fun j _ => hout j⟩
    rcases List.mem_cons.1 hmem with rfl | hmem
    · exact hyi List.mem_cons_self
    · rcases List.eq_or_mem_of_mem_insertIdx hmem with rfl | hmem
      · exact hya rfl
      · exact hyi (List.mem_cons_of_mem _ hmem)
  · intro j hj
    exact Function.update_of_ne hj _ _

/-- `list_remove` at a position in the list. -/
theorem remove (hr : s.Repr ns xs) (hi : s.list i = some lst) (h₁ : 1 ≤ location)
    (h₂ : location ≤ lst.len) : ∃ a x t, (ns i)[(location - 1).toNat]? = some a ∧
    (xs i)[(location - 1).toNat]? = some x ∧
    s.act (.remove i location) = some (.node a, t) ∧ t.heap.data a = some x ∧
    t.Repr (Function.update ns i ((ns i).eraseIdx (location - 1).toNat))
      (Function.update xs i ((xs i).eraseIdx (location - 1).toNat)) ∧
    ∀ j, j ≠ i → t.list j = s.list j := by
  obtain ⟨b, hb, hl⟩ := hr.holds i lst hi
  obtain ⟨a, h', ha, hrun, hl', hnot, hdata, he⟩ := hl.listRemove h₁ h₂
  obtain ⟨x, hx, hax⟩ := hl.getElem_data ha
  have hmem : a ∈ ns i := List.mem_of_getElem? ha
  have hown : s.Owns ns i a := ⟨lst, hi, List.mem_cons_of_mem _ hmem⟩
  have hne : a ≠ 0 := fun h₀ => hl.null (h₀ ▸ List.mem_cons_of_mem _ hmem)
  refine ⟨a, x, ⟨h', Function.update s.list i (some ⟨lst.head, lst.len - 1⟩), a :: s.removed,
    s.initial⟩, ha, hx, ?_, ?_, hr.change hi ?_ rfl ?_ ?_ ?_ ?_, ?_⟩
  · rw [act, hi, Option.bind_some, hrun]
    dsimp only [Option.map_some]
    rw [if_neg hne]
  · exact hdata.trans hax
  · intro b' hb'
    obtain rfl := Option.some.inj (hb.symm.trans hb')
    exact hl'
  · intro y hy
    exact .inl (List.mem_of_mem_eraseIdx hy)
  · intro j y hown hj
    apply he y
    intro hy
    exact hj (hr.apart j i y hown ⟨lst, hi, hy⟩)
  · exact List.nodup_cons.2 ⟨fun hrem => (hr.removed a hrem).2 i hown, hr.once⟩
  · intro y hy
    rcases List.mem_cons.1 hy with rfl | hy
    · refine ⟨?_, hnot, fun j hj hj' => hj (hr.apart j i y hj' hown)⟩
      have hdata' := hdata.trans hax
      unfold NodeHeap.data at hdata'
      rw [← Option.isSome_map (f := Node.data), hdata']
      rfl
    · obtain ⟨hsome, hout⟩ := hr.removed y hy
      have hyi : y ∉ lst.head :: ns i := fun hmem => hout i ⟨lst, hi, hmem⟩
      refine ⟨by rwa [he y hyi], fun hmem => ?_, fun j _ => hout j⟩
      rcases List.mem_cons.1 hmem with rfl | hmem
      · exact hyi List.mem_cons_self
      · exact hyi (List.mem_cons_of_mem _ (List.mem_of_mem_eraseIdx hmem))
  · intro j hj
    exact Function.update_of_ne hj _ _

/-- `list_index` at a position in the list. -/
theorem index (hr : s.Repr ns xs) (hi : s.list i = some lst) (h₁ : 1 ≤ location)
    (h₂ : location ≤ lst.len) : ∃ a x, (ns i)[(location - 1).toNat]? = some a ∧
    (xs i)[(location - 1).toNat]? = some x ∧
    s.act (.index i location) = some (.node a, s) ∧ s.heap.data a = some x := by
  obtain ⟨b, hb, hl⟩ := hr.holds i lst hi
  obtain ⟨a, ha, hrun⟩ := hl.listIndex h₁ h₂
  obtain ⟨x, hx, hax⟩ := hl.getElem_data ha
  refine ⟨a, x, ha, hx, ?_, hax⟩
  rw [act, hi, Option.bind_some, hrun]
  rfl

/-- A list is created with nothing in it. -/
theorem create (hr : s.Repr ns xs) (block : Node D) (hi : s.list i = none) (ha : s.Fresh a) :
    ∃ t,
    s.act (.create i a block) = some (.none, t) ∧
    t.Repr (Function.update ns i []) (Function.update xs i []) ∧
    t.list i = some ⟨a, 0⟩ ∧ t.initial i = some block ∧
    ∀ j, j ≠ i → t.list j = s.list j := by
  obtain ⟨hne, hnone⟩ := ha
  rw [Option.isNone_iff_eq_none] at hnone
  have he : ∀ y, y ≠ a → (Function.update s.heap a (some block) : NodeHeap D) y = s.heap y :=
    fun y hy => Function.update_of_ne hy _ _
  have hself : ∀ y, Owns ⟨Function.update s.heap a (some block),
      Function.update s.list i (some ⟨a, 0⟩), s.removed, Function.update s.initial i (some block)⟩
      (Function.update ns i []) i y → y = a := by
    rintro y ⟨l, hl, hy⟩
    dsimp only at hl
    rw [Function.update_self] at hl hy
    obtain rfl := Option.some.inj hl
    exact List.mem_singleton.1 hy
  have hother : ∀ j y, j ≠ i → Owns ⟨Function.update s.heap a (some block),
      Function.update s.list i (some ⟨a, 0⟩), s.removed, Function.update s.initial i (some block)⟩
      (Function.update ns i []) j y → s.Owns ns j y := by
    rintro j y hj ⟨l, hl, hy⟩
    dsimp only at hl
    rw [Function.update_of_ne hj] at hl hy
    exact ⟨l, hl, hy⟩
  refine ⟨_, if_pos ⟨by rw [hi]; rfl, hne, by rw [hnone]; rfl⟩, ⟨?_, ?_, hr.once, ?_⟩,
    Function.update_self .., Function.update_self .., fun j hj => Function.update_of_ne hj _ _⟩
  · intro j l hl
    dsimp only at hl ⊢
    by_cases hj : j = i
    · subst hj
      rw [Function.update_self] at hl ⊢
      rw [Function.update_self, Function.update_self]
      obtain rfl := Option.some.inj hl
      refine ⟨block, rfl, rfl, ?_, rfl, List.nodup_singleton a, ?_⟩
      · simp [NodeHeap.next]
      · exact fun h₀ => hne (List.mem_singleton.1 h₀).symm
    · rw [Function.update_of_ne hj] at hl ⊢
      rw [Function.update_of_ne hj, Function.update_of_ne hj]
      obtain ⟨b, hb, hholds⟩ := hr.holds j l hl
      refine ⟨b, hb, hholds.congr fun y hy => he y ?_⟩
      rintro rfl
      exact hr.not_owns hnone ⟨l, hl, hy⟩
  · intro j k y hjy hky
    by_cases hj : j = i
    · subst hj
      by_cases hk : k = j
      · exact hk.symm
      · obtain rfl := hself y hjy
        exact absurd (hother k y hk hky) (hr.not_owns hnone)
    · by_cases hk : k = i
      · subst hk
        obtain rfl := hself y hky
        exact absurd (hother j y hj hjy) (hr.not_owns hnone)
      · exact hr.apart j k y (hother j y hj hjy) (hother k y hk hky)
  · intro y hy
    obtain ⟨hsome, hout⟩ := hr.removed y hy
    have hya : y ≠ a := by
      rintro rfl
      exact hr.not_removed hnone hy
    refine ⟨(congrArg Option.isSome (he y hya)).trans hsome, fun j hown => ?_⟩
    by_cases hj : j = i
    · subst hj
      exact hya (hself y hown)
    · exact hout j (hother j y hj hown)

/-- `free` of a node that has been removed. -/
theorem free (hr : s.Repr ns xs) (ha : a ∈ s.removed) : ∃ t,
    s.act (.free a) = some (.none, t) ∧ t.Repr ns xs ∧ t.list = s.list := by
  obtain ⟨-, hout⟩ := hr.removed a ha
  have he : ∀ y, y ≠ a → (Function.update s.heap a none : NodeHeap D) y = s.heap y :=
    fun y hy => Function.update_of_ne hy _ _
  refine ⟨_, if_pos ha, ⟨?_, hr.apart, hr.once.erase a, ?_⟩, rfl⟩
  · intro j l hl
    obtain ⟨b, hb, hholds⟩ := hr.holds j l hl
    refine ⟨b, hb, hholds.congr fun y hy => he y ?_⟩
    rintro rfl
    exact hout j ⟨l, hl, hy⟩
  · intro y hy
    obtain ⟨hya, hy⟩ := hr.once.mem_erase_iff.1 hy
    obtain ⟨hsome, hout'⟩ := hr.removed y hy
    exact ⟨(congrArg Option.isSome (he y hya)).trans hsome, hout'⟩

end Repr

/-! ## Positions that are not in the list -/

/-- A call of `list_insert` that does nothing but perhaps use up an answer of `malloc`. -/
theorem insert_out (d : D) (block : Node D) (hi : s.list i = some lst)
    (ha : a = 0 ∨ s.Fresh a) (h : a = 0 ∨ ¬(1 ≤ location ∧ location ≤ lst.len + 1)) :
    s.act (.insert i location d a block) = some (.code error, s) := by
  have hself : Function.update s.list i (some lst) = s.list := by
    rw [← hi, Function.update_eq_self]
  have hrun : s.heap.listInsert lst location d a block = some (error, s.heap, lst) := by
    unfold NodeHeap.listInsert
    split
    · rfl
    · rename_i hin
      rw [if_pos (h.resolve_right (not_not.2 (by omega)))]
  rw [act, if_pos ha, hi, Option.bind_some, hrun]
  dsimp only [Option.map_some]
  rw [hself]

theorem remove_out (hi : s.list i = some lst) (h : ¬(1 ≤ location ∧ location ≤ lst.len)) :
    s.act (.remove i location) = some (.node 0, s) := by
  have hself : Function.update s.list i (some lst) = s.list := by
    rw [← hi, Function.update_eq_self]
  rw [act, hi, Option.bind_some, NodeHeap.listRemove, if_pos (by omega)]
  dsimp only [Option.map_some]
  rw [hself, if_pos rfl]

theorem index_out (hi : s.list i = some lst)
    (h : ¬(1 ≤ location ∧ location ≤ lst.len)) : s.act (.index i location) = some (.node 0, s) := by
  rw [act, hi, Option.bind_some, NodeHeap.listIndex, if_pos (by omega)]
  rfl

/-! ## Sequences -/

/-- The calls on list `i` do what the operations on its sequence do, and these are the functions
that the kernel model has for the calls. The conditions on `a` say whether `malloc` has
succeeded. -/
structure Refines (s : Lists ι D) (ns : ι → List ℕ) (xs : ι → List D) : Prop where
  repr : s.Repr ns xs
  insert : ∀ i lst location d a block, s.list i = some lst → s.Fresh a →
    1 ≤ location → location ≤ lst.len + 1 → ∃ t,
    s.act (.insert i location d a block) = some (.code 0, t) ∧
    t.Repr (Function.update ns i ((ns i).insertIdx (location - 1).toNat a))
      (Function.update xs i ((xs i).insertIdx (location - 1).toNat d)) ∧
    ∀ j, j ≠ i → t.list j = s.list j
  insertOut : ∀ i lst location d a block, s.list i = some lst → s.Fresh a →
    ¬(1 ≤ location ∧ location ≤ lst.len + 1) →
    s.act (.insert i location d a block) = some (.code error, s)
  remove : ∀ i lst location, s.list i = some lst → 1 ≤ location → location ≤ lst.len →
    ∃ a x t, (ns i)[(location - 1).toNat]? = some a ∧ (xs i)[(location - 1).toNat]? = some x ∧
    s.act (.remove i location) = some (.node a, t) ∧ t.heap.data a = some x ∧
    t.Repr (Function.update ns i ((ns i).eraseIdx (location - 1).toNat))
      (Function.update xs i ((xs i).eraseIdx (location - 1).toNat)) ∧
    ∀ j, j ≠ i → t.list j = s.list j
  removeOut : ∀ i lst location, s.list i = some lst → ¬(1 ≤ location ∧ location ≤ lst.len) →
    s.act (.remove i location) = some (.node 0, s)
  index : ∀ i lst location, s.list i = some lst → 1 ≤ location → location ≤ lst.len →
    ∃ a x, (ns i)[(location - 1).toNat]? = some a ∧ (xs i)[(location - 1).toNat]? = some x ∧
    s.act (.index i location) = some (.node a, s) ∧ s.heap.data a = some x
  indexOut : ∀ i lst location, s.list i = some lst → ¬(1 ≤ location ∧ location ≤ lst.len) →
    s.act (.index i location) = some (.node 0, s)
  insertModel : ∀ i lst location d a block (m : Mem), s.list i = some lst → a = 0 ∨ s.Fresh a →
    (a = 0 ↔ m.malloc.1.ok = false) → ∃ ns' t,
    s.act (.insert i location d a block) =
      some (.code (Yalnix.listInsert (xs i) location d m).1, t) ∧
    t.Repr ns' (Function.update xs i (Yalnix.listInsert (xs i) location d m).2.1)
  removeModel : ∀ i lst location, s.list i = some lst → ∃ a t,
    s.act (.remove i location) = some (.node a, t) ∧
    (Yalnix.listRemove (xs i) location = none ∧ a = 0 ∧ t = s ∨
      ∃ x l ns', Yalnix.listRemove (xs i) location = some (x, l) ∧ t.heap.data a = some x ∧
        t.Repr ns' (Function.update xs i l))
  indexModel : ∀ i lst location, s.list i = some lst → ∃ a,
    s.act (.index i location) = some (.node a, s) ∧
    (Yalnix.listIndex (xs i) location = none ∧ a = 0 ∨
      ∃ x, Yalnix.listIndex (xs i) location = some x ∧ s.heap.data a = some x)

/-! ## The functions of the kernel model -/

namespace Repr

theorem insertModel (hr : s.Repr ns xs) (d : D) (block : Node D) (m : Mem)
    (hi : s.list i = some lst) (ha : a = 0 ∨ s.Fresh a) (hm : a = 0 ↔ m.malloc.1.ok = false) :
    ∃ ns' t, s.act (.insert i location d a block) =
      some (.code (Yalnix.listInsert (xs i) location d m).1, t) ∧
    t.Repr ns' (Function.update xs i (Yalnix.listInsert (xs i) location d m).2.1) := by
  have hlen := hr.length hi
  unfold Yalnix.listInsert
  by_cases hout : location > (xs i).length + 1 ∨ location < 1
  · rw [if_pos hout]
    refine ⟨ns, s, insert_out d block hi ha (.inr (by omega)), ?_⟩
    rwa [Function.update_eq_self]
  rw [if_neg hout]
  dsimp only
  by_cases hnull : a = 0
  · rw [if_neg (by rw [hm.1 hnull]; simp)]
    refine ⟨ns, s, insert_out d block hi ha (.inl hnull), ?_⟩
    rwa [Function.update_eq_self]
  · have hok : m.malloc.1.ok = true := by simpa using mt hm.2 hnull
    have h₁ : 1 ≤ location := by omega
    have h₂ : location ≤ lst.len + 1 := by omega
    obtain ⟨t, hact, ht, -⟩ := hr.insert d block hi (ha.resolve_left hnull) h₁ h₂
    rw [if_pos hok]
    exact ⟨_, t, hact, ht⟩

theorem removeModel (hr : s.Repr ns xs) (location : Int) (hi : s.list i = some lst) :
    ∃ a t, s.act (.remove i location) = some (.node a, t) ∧
    (Yalnix.listRemove (xs i) location = none ∧ a = 0 ∧ t = s ∨
      ∃ x l ns', Yalnix.listRemove (xs i) location = some (x, l) ∧ t.heap.data a = some x ∧
        t.Repr ns' (Function.update xs i l)) := by
  have hlen := hr.length hi
  unfold Yalnix.listRemove
  by_cases hout : location > (xs i).length ∨ location < 1
  · exact ⟨0, s, remove_out hi (by omega), .inl ⟨if_pos hout, rfl, rfl⟩⟩
  · have h₁ : 1 ≤ location := by omega
    have h₂ : location ≤ lst.len := by omega
    obtain ⟨a, x, t, -, hx, hact, hdata, ht, -⟩ := hr.remove hi h₁ h₂
    rw [if_neg hout, hx]
    exact ⟨a, t, hact, .inr ⟨x, _, _, rfl, hdata, ht⟩⟩

theorem indexModel (hr : s.Repr ns xs) (location : Int) (hi : s.list i = some lst) :
    ∃ a, s.act (.index i location) = some (.node a, s) ∧
    (Yalnix.listIndex (xs i) location = none ∧ a = 0 ∨
      ∃ x, Yalnix.listIndex (xs i) location = some x ∧ s.heap.data a = some x) := by
  have hlen := hr.length hi
  unfold Yalnix.listIndex
  by_cases hout : location > (xs i).length ∨ location < 1
  · exact ⟨0, index_out hi (by omega), .inl ⟨if_pos hout, rfl⟩⟩
  · have h₁ : 1 ≤ location := by omega
    have h₂ : location ≤ lst.len := by omega
    obtain ⟨a, x, -, hx, hact, hdata⟩ := hr.index hi h₁ h₂
    rw [if_neg hout, hx]
    exact ⟨a, hact, .inr ⟨x, rfl, hdata⟩⟩

end Repr

theorem Repr.refines (hr : s.Repr ns xs) : s.Refines ns xs where
  repr := hr
  insert _ _ _ d _ block hi ha h₁ h₂ := hr.insert d block hi ha h₁ h₂
  insertOut _ _ _ d _ block hi ha hout := insert_out d block hi (.inr ha) (.inr hout)
  remove _ _ _ hi h₁ h₂ := hr.remove hi h₁ h₂
  removeOut _ _ _ hi hout := remove_out hi hout
  index _ _ _ hi h₁ h₂ := hr.index hi h₁ h₂
  indexOut _ _ _ hi hout := index_out hi hout
  insertModel _ _ _ d _ block m hi ha hm := hr.insertModel d block m hi ha hm
  removeModel _ _ location hi := hr.removeModel location hi
  indexModel _ _ location hi := hr.indexModel location hi

/-- Every call does to the sequences what it says. -/
theorem Repr.step (hr : s.Repr ns xs) (h : s.step op = some s') :
    ∃ ns', s'.Repr ns' (op.onSeqs xs) := by
  obtain ⟨⟨r, t⟩, hact, rfl⟩ := Option.map_eq_some_iff.1 h
  cases op with
  | create i node block =>
      have hcond : (s.list i).isNone ∧ s.Fresh node := by
        rw [act] at hact
        split at hact
        · assumption
        · exact absurd hact (by simp)
      obtain ⟨t', ht', hr', -⟩ :=
        hr.create block (Option.isNone_iff_eq_none.1 hcond.1) hcond.2
      obtain ⟨-, rfl⟩ := Prod.mk.inj (Option.some.inj (hact.symm.trans ht'))
      exact ⟨_, hr'⟩
  | insert i location data node block =>
      have hnode : node = 0 ∨ s.Fresh node := by
        rw [act] at hact
        split at hact
        · assumption
        · exact absurd hact (by simp)
      have hlist : ∃ lst, s.list i = some lst := by
        rw [act, if_pos hnode] at hact
        obtain ⟨lst, hlst, -⟩ := Option.bind_eq_some_iff.1 hact
        exact ⟨lst, hlst⟩
      obtain ⟨lst, hlst⟩ := hlist
      have hlen := hr.length hlst
      by_cases hin : node = 0 ∨ location > (xs i).length + 1 ∨ location < 1
      · have hpos : node = 0 ∨ ¬(1 ≤ location ∧ location ≤ lst.len + 1) :=
          hin.imp_right (by omega)
        have hout := insert_out data block hlst hnode hpos
        obtain ⟨-, rfl⟩ := Prod.mk.inj (Option.some.inj (hact.symm.trans hout))
        rw [ListOp.onSeqs, if_pos hin]
        exact ⟨ns, hr⟩
      · obtain ⟨hne, hloc⟩ := not_or.1 hin
        have h₁ : 1 ≤ location := by omega
        have h₂ : location ≤ lst.len + 1 := by omega
        obtain ⟨t', ht', hr', -⟩ := hr.insert data block hlst (hnode.resolve_left hne) h₁ h₂
        obtain ⟨-, rfl⟩ := Prod.mk.inj (Option.some.inj (hact.symm.trans ht'))
        rw [ListOp.onSeqs, if_neg hin]
        exact ⟨_, hr'⟩
  | remove i location =>
      obtain ⟨lst, hlst, -⟩ := Option.bind_eq_some_iff.1 hact
      have hlen := hr.length hlst
      by_cases hin : location > (xs i).length ∨ location < 1
      · have hpos : ¬(1 ≤ location ∧ location ≤ lst.len) := by omega
        have hout := remove_out hlst hpos
        obtain ⟨-, rfl⟩ := Prod.mk.inj (Option.some.inj (hact.symm.trans hout))
        rw [ListOp.onSeqs, if_pos hin]
        exact ⟨ns, hr⟩
      · have h₁ : 1 ≤ location := by omega
        have h₂ : location ≤ lst.len := by omega
        obtain ⟨a, x, t', -, -, ht', -, hr', -⟩ := hr.remove hlst h₁ h₂
        obtain ⟨-, rfl⟩ := Prod.mk.inj (Option.some.inj (hact.symm.trans ht'))
        rw [ListOp.onSeqs, if_neg hin]
        exact ⟨_, hr'⟩
  | index i location =>
      obtain ⟨lst, hlst, hact⟩ := Option.bind_eq_some_iff.1 hact
      obtain ⟨a, -, ha⟩ := Option.map_eq_some_iff.1 hact
      obtain ⟨-, rfl⟩ := Prod.mk.inj ha
      exact ⟨ns, hr⟩
  | free a =>
      have hrem : a ∈ s.removed := by
        rw [act] at hact
        split at hact
        · assumption
        · exact absurd hact (by simp)
      obtain ⟨t', ht', hr', -⟩ := hr.free hrem
      obtain ⟨-, rfl⟩ := Prod.mk.inj (Option.some.inj (hact.symm.trans ht'))
      exact ⟨ns, hr'⟩

/-! ## All sequences of calls -/

/-- The sequences that the operations of the calls made yield. -/
def seqs (tr : List (Move (Lists ι D) (ListOp ι D))) : ι → List D :=
  (tr.map Move.label).foldl ListOp.onSeqs fun _ => []

variable {C : Lists ι D → ListOp ι D → Lists ι D → Prop} {s₀ : Lists ι D}
  {tr : List (Move (Lists ι D) (ListOp ι D))}

theorem repr_of_run (h₀ : ∀ i, s₀.list i = none) (hremoved : s₀.removed = [])
    (h : Run step C s₀ tr s) : ∃ ns, s.Repr ns (seqs tr) := by
  induction h with
  | start =>
      refine ⟨fun _ => [], ?_, ?_, ?_, ?_⟩
      · intro i lst hi
        exact absurd ((h₀ i).symm.trans hi) (by simp)
      · rintro i j a ⟨lst, hi, -⟩ -
        exact absurd ((h₀ i).symm.trans hi) (by simp)
      · rw [hremoved]
        exact List.nodup_nil
      · rw [hremoved]
        exact fun a ha => absurd ha List.not_mem_nil
  | snoc _ hs _ ih =>
      obtain ⟨ns, hr⟩ := ih
      rw [seqs, List.map_append, List.foldl_append]
      exact hr.step hs

/-- From a heap without lists, every sequence of calls leads to lists that hold the sequences
which the same operations on sequences yield, and on which each call refines its operation. -/
theorem lists_refine (h₀ : ∀ i, s₀.list i = none) (hremoved : s₀.removed = [])
    (h : Run step C s₀ tr s) : ∃ ns, s.Refines ns (seqs tr) := by
  obtain ⟨ns, hr⟩ := repr_of_run h₀ hremoved h
  exact ⟨ns, hr.refines⟩

/-- A heap in which nothing is allocated. -/
def noLists {ι D : Type*} : Lists ι D := ⟨fun _ => none, fun _ => none, [], fun _ => none⟩

/-- Two lists, in which a node is inserted at the front, one behind the end, and the first is
removed and freed, so that its address can be used again. -/
def twoLists : List (ListOp ℕ ℕ) :=
  [.create 0 8 ⟨3, 3⟩, .create 1 16 ⟨3, 8⟩, .insert 0 1 5 24 ⟨3, 24⟩, .insert 0 2 6 32 ⟨3, 0⟩,
    .remove 0 1, .free 24, .insert 1 1 7 24 ⟨5, 32⟩]

/-- The theorem on these calls. -/
theorem lists_refine_two : ∃ tr s, Run step (fun _ _ _ => True) noLists tr s ∧
    tr.map Move.label = twoLists ∧ seqs tr 0 = [6] ∧ ∃ ns, s.Refines ns (seqs tr) := by
  have hrun : (exec step (fun _ _ _ => True) noLists twoLists).isSome = true := by decide
  obtain ⟨s, hs⟩ := Option.isSome_iff_exists.1 hrun
  obtain ⟨tr, hr, hls⟩ := exec_run hs
  obtain ⟨ns, hns⟩ := lists_refine (fun _ => rfl) rfl hr
  have hseq : seqs tr 0 = [6] := by
    rw [seqs, hls]
    decide
  exact ⟨tr, s, hr, hls, hseq, ns, hns⟩

end Lists

end Yalnix
