import Yalnix.Lists.Refine

/-!
# The nodes that are allocated

Besides the calls of `Lists.Refine` a list can be given up with `list_delete`, which reads the
link of each node before it frees it. With the lists that are left and the nodes that have been
removed but not freed, all nodes that are allocated are accounted for: no call loses one, and
`list_delete` frees those of its list and no other.
-/

namespace Yalnix

open Transition

/-- A call on lists, or `list_delete`, after which the list has to be created again. -/
inductive StoreOp (ι D : Type*) where
  | call (op : ListOp ι D)
  | delete (i : ι)

namespace NodeHeap

variable {D : Type*} {h h' : NodeHeap D} {lst lst' : LinkedList} {ns : List ℕ} {xs : List D}
  {t a y : ℕ} {d : D} {block : Node D} {location rc : Int}

/-- The loop frees the cells of a chain, each once, and no other. -/
theorem deleteLoop_chain {as : List ℕ} (hc : Chain h.next a as t) (hnodup : (a :: as).Nodup) :
    ∃ h', deleteLoop (as.length + 1) h a = some h' ∧
      ∀ y, h' y = if y ∈ a :: as then none else h y := by
  induction as generalizing h a with
  | nil =>
      refine ⟨Function.update h a none, ?_, fun y => ?_⟩
      · rw [List.length_nil, Nat.zero_add, deleteLoop, Chain.nil_iff.1 hc]
        rfl
      · by_cases hy : y = a
        · rw [hy, Function.update_self, if_pos (List.mem_singleton_self a)]
        · rw [Function.update_of_ne hy, if_neg (by simpa using hy)]
  | cons c as ih =>
      obtain ⟨hac, hrest⟩ := Chain.cons_iff.1 hc
      obtain ⟨hnot, hnodup⟩ := List.nodup_cons.1 hnodup
      -- the rest of the chain does not read the cell that is freed
      have hkept : Chain (next (Function.update h a none)) c as t := by
        refine hrest.congr fun y hy => next_congr (Function.update_of_ne ?_ _ _)
        rintro rfl
        exact hnot hy
      obtain ⟨h', hrun, hcells⟩ := ih hkept hnodup
      refine ⟨h', ?_, fun y => ?_⟩
      · rw [List.length_cons, deleteLoop, hac]
        exact hrun
      · rw [hcells y]
        by_cases hy : y = a
        · subst hy
          rw [if_neg hnot, if_pos List.mem_cons_self, Function.update_self]
        · rw [Function.update_of_ne hy]
          simp only [List.mem_cons, hy, false_or]

theorem Holds.listDelete (hl : Holds h lst ns xs t) : ∃ h',
    h.listDelete lst = some (0, h', { lst with len := 0 }) ∧
      ∀ y, h' y = if y ∈ lst.head :: ns then none else h y := by
  obtain ⟨h', hrun, hcells⟩ := deleteLoop_chain hl.chain hl.nodup
  have hlen := hl.len
  refine ⟨h', ?_, hcells⟩
  rw [NodeHeap.listDelete, show (lst.len + 1).toNat = ns.length + 1 by omega, hrun]
  rfl

/-! ## Which cells a call allocates -/

theorem listInsert_cells (hrun : h.listInsert lst location d a block = some (rc, h', lst')) :
    lst'.head = lst.head ∧ ∀ y, (h' y).isSome → (h y).isSome ∨ y = a := by
  unfold NodeHeap.listInsert at hrun
  split at hrun
  · obtain ⟨-, rfl, rfl⟩ := Option.some.inj hrun
    exact ⟨rfl, fun y => Or.inl⟩
  split at hrun
  · obtain ⟨-, rfl, rfl⟩ := Option.some.inj hrun
    exact ⟨rfl, fun y => Or.inl⟩
  obtain ⟨curr, -, hrun⟩ := Option.bind_eq_some_iff.1 hrun
  obtain ⟨c, hc, hrun⟩ := Option.map_eq_some_iff.1 hrun
  obtain ⟨-, rfl, rfl⟩ := hrun
  refine ⟨rfl, fun y hy => ?_⟩
  by_cases hya : y = a
  · exact Or.inr hya
  rw [Function.update_of_ne hya] at hy
  by_cases hyc : y = curr
  · subst hyc
    rw [Function.update_of_ne hya] at hc
    exact Or.inl (by rw [hc]; rfl)
  · rw [Function.update_of_ne hyc, Function.update_of_ne hya] at hy
    exact Or.inl hy

theorem listRemove_cells (hrun : h.listRemove lst location = some (a, h', lst')) :
    lst'.head = lst.head ∧ ∀ y, (h' y).isSome → (h y).isSome := by
  unfold NodeHeap.listRemove at hrun
  split at hrun
  · obtain ⟨-, rfl, rfl⟩ := Option.some.inj hrun
    exact ⟨rfl, fun y => id⟩
  obtain ⟨curr, -, hrun⟩ := Option.bind_eq_some_iff.1 hrun
  obtain ⟨c, hc, hrun⟩ := Option.bind_eq_some_iff.1 hrun
  obtain ⟨tmp, -, hrun⟩ := Option.map_eq_some_iff.1 hrun
  obtain ⟨-, rfl, rfl⟩ := hrun
  refine ⟨rfl, fun y hy => ?_⟩
  by_cases hyc : y = curr
  · subst hyc
    rw [hc]
    rfl
  · rwa [Function.update_of_ne hyc] at hy

end NodeHeap

namespace Lists

variable {ι D : Type*} {s s' t : Lists ι D} {ns : ι → List ℕ} {xs : ι → List D}
  {i j : ι} {lst : LinkedList} {a y : ℕ} {d : D} {block : Node D} {location : Int}
  {op : ListOp ι D} {r : ListResult}

/-- Every node that is allocated is in a list, or it has been removed from one. -/
def NoLeak (s : Lists ι D) (ns : ι → List ℕ) : Prop :=
  ∀ a, (s.heap a).isSome → a ∈ s.removed ∨ ∃ i, s.Owns ns i a

/-- The nodes that are allocated are those of the lists and those that have been removed. -/
theorem Repr.isSome_iff (hr : s.Repr ns xs) (hl : s.NoLeak ns) :
    (s.heap a).isSome ↔ a ∈ s.removed ∨ ∃ i, s.Owns ns i a := by
  constructor
  · exact hl a
  · rintro (ha | ⟨i, ha⟩)
    · exact (hr.removed a ha).1
    · exact hr.isSome ha

variable [DecidableEq ι]

/-- The lists after a call or after `list_delete`. -/
def store (s : Lists ι D) : StoreOp ι D → Option (Lists ι D)
  | .call op => s.step op
  | .delete i => (s.list i).bind fun lst => (s.heap.listDelete lst).map fun r =>
      { s with heap := r.2.1, list := Function.update s.list i none }

/-- What a call or `list_delete` does to the sequences that the lists stand for. -/
def storeSeqs (xs : ι → List D) : StoreOp ι D → ι → List D
  | .call op => op.onSeqs xs
  | .delete i => Function.update xs i []

/-- A node of list `i` that stays in it stays where it is, and so does a node of another
list. -/
theorem Owns.update {h' : NodeHeap D} {lst' : LinkedList} {ms : List ℕ} {removed : List ℕ}
    (hown : s.Owns ns j y) (hi : s.list i = some lst) (hhead : lst'.head = lst.head)
    (hms : j = i → y ∈ lst.head :: ms) :
    Owns ⟨h', Function.update s.list i (some lst'), removed, s.initial⟩
      (Function.update ns i ms) j y := by
  obtain ⟨l, hl, hy⟩ := hown
  by_cases hj : j = i
  · subst hj
    refine ⟨lst', Function.update_self .., ?_⟩
    rw [Function.update_self, hhead]
    exact hms rfl
  · refine ⟨l, ?_, ?_⟩
    · dsimp only
      rwa [Function.update_of_ne hj]
    · rwa [Function.update_of_ne hj]

/-! ## No call loses a node -/

theorem NoLeak.create (hl : s.NoLeak ns) (hi : s.list i = none)
    (hact : s.act (.create i a block) = some (r, t)) : t.NoLeak (Function.update ns i []) := by
  rw [act] at hact
  split at hact
  swap
  · exact absurd hact (by simp)
  obtain ⟨-, rfl⟩ := Prod.mk.inj (Option.some.inj hact)
  intro y hy
  dsimp only at hy
  by_cases hya : y = a
  · refine Or.inr ⟨i, ⟨a, 0⟩, Function.update_self .., ?_⟩
    rw [hya]
    exact List.mem_cons_self
  rw [Function.update_of_ne hya] at hy
  rcases hl y hy with hrem | ⟨j, l, hj, hown⟩
  · exact Or.inl hrem
  · have hne : j ≠ i := by
      rintro rfl
      exact absurd (hj.symm.trans hi) (by simp)
    refine Or.inr ⟨j, l, ?_, ?_⟩
    · dsimp only
      rwa [Function.update_of_ne hne]
    · rwa [Function.update_of_ne hne]

theorem NoLeak.insert (hl : s.NoLeak ns) (hi : s.list i = some lst)
    (hloc : (location - 1).toNat ≤ (ns i).length)
    (hact : s.act (.insert i location d a block) = some (.code 0, t)) :
    t.NoLeak (Function.update ns i ((ns i).insertIdx (location - 1).toNat a)) := by
  rw [act] at hact
  split at hact
  swap
  · exact absurd hact (by simp)
  rw [hi, Option.bind_some] at hact
  obtain ⟨⟨rc, h', lst'⟩, hrun, he⟩ := Option.map_eq_some_iff.1 hact
  obtain ⟨-, rfl⟩ := Prod.mk.inj he
  obtain ⟨hsame, hcells⟩ := NodeHeap.listInsert_cells hrun
  intro y hy
  rcases hcells y hy with hold | rfl
  · rcases hl y hold with hrem | ⟨j, hown⟩
    · exact Or.inl hrem
    · refine Or.inr ⟨j, hown.update hi hsame ?_⟩
      rintro rfl
      rcases List.mem_cons.1 ((owns_iff hi).1 hown) with hy | hy
      · exact hy ▸ List.mem_cons_self
      · exact List.mem_cons_of_mem _ ((List.mem_insertIdx hloc).2 (Or.inr hy))
  · refine Or.inr ⟨i, lst', Function.update_self .., ?_⟩
    rw [Function.update_self]
    exact List.mem_cons_of_mem _ ((List.mem_insertIdx hloc).2 (Or.inl rfl))

theorem NoLeak.remove (hl : s.NoLeak ns) (hi : s.list i = some lst)
    (ha : (ns i)[(location - 1).toNat]? = some a) (hne : a ≠ 0)
    (hact : s.act (.remove i location) = some (.node a, t)) :
    t.NoLeak (Function.update ns i ((ns i).eraseIdx (location - 1).toNat)) := by
  rw [act, hi, Option.bind_some] at hact
  obtain ⟨⟨a', h', lst'⟩, hrun, he⟩ := Option.map_eq_some_iff.1 hact
  obtain ⟨hnode, rfl⟩ := Prod.mk.inj he
  obtain rfl : a' = a := ListResult.node.inj hnode
  obtain ⟨hsame, hcells⟩ := NodeHeap.listRemove_cells hrun
  intro y hy
  dsimp only
  rw [if_neg hne]
  rcases hl y (hcells y hy) with hrem | ⟨j, hown⟩
  · exact Or.inl (List.mem_cons_of_mem _ hrem)
  by_cases hya : y = a'
  · exact Or.inl (hya ▸ List.mem_cons_self)
  · refine Or.inr ⟨j, hown.update hi hsame ?_⟩
    rintro rfl
    rcases List.mem_cons.1 ((owns_iff hi).1 hown) with hy | hy
    · exact hy ▸ List.mem_cons_self
    · obtain ⟨k, hk⟩ := List.getElem?_of_mem hy
      refine List.mem_cons_of_mem _ (List.mem_eraseIdx_iff_getElem?.2 ⟨k, ?_, hk⟩)
      rintro rfl
      exact hya (Option.some.inj (hk.symm.trans ha))

/-- The call `op` loses no node. -/
theorem Repr.call (hr : s.Repr ns xs) (hl : s.NoLeak ns) (h : s.step op = some s') :
    ∃ ns', s'.Repr ns' (op.onSeqs xs) ∧ s'.NoLeak ns' := by
  obtain ⟨⟨r, t⟩, hact, rfl⟩ := Option.map_eq_some_iff.1 h
  cases op with
  | create i node block =>
      have hcond : (s.list i).isNone ∧ s.Fresh node := by
        rw [act] at hact
        split at hact
        · assumption
        · exact absurd hact (by simp)
      have hi := Option.isNone_iff_eq_none.1 hcond.1
      obtain ⟨t', ht', hr', -⟩ := hr.create block hi hcond.2
      obtain ⟨-, rfl⟩ := Prod.mk.inj (Option.some.inj (hact.symm.trans ht'))
      exact ⟨_, hr', hl.create hi hact⟩
  | insert i location data node block =>
      have hnode : node = 0 ∨ s.Fresh node := by
        rw [act] at hact
        split at hact
        · assumption
        · exact absurd hact (by simp)
      obtain ⟨lst, hlst⟩ : ∃ lst, s.list i = some lst := by
        rw [act, if_pos hnode] at hact
        obtain ⟨lst, hlst, -⟩ := Option.bind_eq_some_iff.1 hact
        exact ⟨lst, hlst⟩
      have hlen := hr.length hlst
      by_cases hin : node = 0 ∨ location > (xs i).length + 1 ∨ location < 1
      · have hpos : node = 0 ∨ ¬(1 ≤ location ∧ location ≤ lst.len + 1) :=
          hin.imp_right (by omega)
        have hout := insert_out data block hlst hnode hpos
        obtain ⟨-, rfl⟩ := Prod.mk.inj (Option.some.inj (hact.symm.trans hout))
        rw [ListOp.onSeqs, if_pos hin]
        exact ⟨ns, hr, hl⟩
      · obtain ⟨hne, hloc⟩ := not_or.1 hin
        have h₁ : 1 ≤ location := by omega
        have h₂ : location ≤ lst.len + 1 := by omega
        obtain ⟨b, -, hholds⟩ := hr.holds i lst hlst
        have hns := hholds.len
        obtain ⟨t', ht', hr', -⟩ := hr.insert data block hlst (hnode.resolve_left hne) h₁ h₂
        obtain ⟨rfl, rfl⟩ := Prod.mk.inj (Option.some.inj (hact.symm.trans ht'))
        rw [ListOp.onSeqs, if_neg hin]
        exact ⟨_, hr', hl.insert hlst (by omega) hact⟩
  | remove i location =>
      obtain ⟨lst, hlst, -⟩ := Option.bind_eq_some_iff.1 hact
      have hlen := hr.length hlst
      by_cases hin : location > (xs i).length ∨ location < 1
      · have hpos : ¬(1 ≤ location ∧ location ≤ lst.len) := by omega
        have hout := remove_out hlst hpos
        obtain ⟨-, rfl⟩ := Prod.mk.inj (Option.some.inj (hact.symm.trans hout))
        rw [ListOp.onSeqs, if_pos hin]
        exact ⟨ns, hr, hl⟩
      · have h₁ : 1 ≤ location := by omega
        have h₂ : location ≤ lst.len := by omega
        obtain ⟨a, x, t', ha, -, ht', -, hr', -⟩ := hr.remove hlst h₁ h₂
        obtain ⟨rfl, rfl⟩ := Prod.mk.inj (Option.some.inj (hact.symm.trans ht'))
        rw [ListOp.onSeqs, if_neg hin]
        obtain ⟨b, -, hholds⟩ := hr.holds i lst hlst
        have hne : a ≠ 0 := by
          rintro rfl
          exact hholds.null (List.mem_cons_of_mem _ (List.mem_of_getElem? ha))
        exact ⟨_, hr', hl.remove hlst ha hne hact⟩
  | index i location =>
      obtain ⟨lst, hlst, hact⟩ := Option.bind_eq_some_iff.1 hact
      obtain ⟨a, -, ha⟩ := Option.map_eq_some_iff.1 hact
      obtain ⟨-, rfl⟩ := Prod.mk.inj ha
      exact ⟨ns, hr, hl⟩
  | free a =>
      have hrem : a ∈ s.removed := by
        rw [act] at hact
        split at hact
        · assumption
        · exact absurd hact (by simp)
      obtain ⟨t', ht', hr', -⟩ := hr.free hrem
      obtain ⟨-, rfl⟩ := Prod.mk.inj (Option.some.inj (hact.symm.trans ht'))
      refine ⟨ns, hr', fun y hy => ?_⟩
      rw [act, if_pos hrem] at ht'
      obtain ⟨-, rfl⟩ := Prod.mk.inj (Option.some.inj ht')
      dsimp only at hy
      by_cases hya : y = a
      · rw [hya, Function.update_self] at hy
        exact absurd hy (by simp)
      · rw [Function.update_of_ne hya] at hy
        exact (hl y hy).imp_left (List.mem_erase_of_ne hya).2

/-- `list_delete` frees the head and the nodes of its list, each once, and leaves the other
lists. -/
theorem Repr.delete (hr : s.Repr ns xs) (hi : s.list i = some lst) : ∃ t,
    s.store (.delete i) = some t ∧
    (∀ y, t.heap y = if y ∈ lst.head :: ns i then none else s.heap y) ∧
      t.list i = none ∧ (∀ j, j ≠ i → t.list j = s.list j) ∧ t.removed = s.removed ∧
        t.Repr ns (Function.update xs i []) := by
  obtain ⟨b, hb, hl⟩ := hr.holds i lst hi
  obtain ⟨h', hrun, hcells⟩ := hl.listDelete
  have hself : ∀ {j l}, Function.update s.list i none j = some l → j ≠ i ∧ s.list j = some l := by
    intro j l hj
    by_cases hji : j = i
    · rw [hji, Function.update_self] at hj
      exact absurd hj (by simp)
    · rw [Function.update_of_ne hji] at hj
      exact ⟨hji, hj⟩
  have hkept : ∀ {j y}, s.Owns ns j y → j ≠ i → h' y = s.heap y := by
    intro j y hown hji
    rw [hcells y, if_neg]
    intro hy
    exact hji (hr.apart j i y hown ⟨lst, hi, hy⟩)
  refine ⟨{ s with heap := h', list := Function.update s.list i none }, ?_, hcells,
    Function.update_self .., fun j hj => Function.update_of_ne hj _ _, rfl, ?_, ?_, hr.once, ?_⟩
  · rw [store, hi, Option.bind_some, hrun]
    rfl
  · intro j l hj
    obtain ⟨hji, hj⟩ := hself hj
    obtain ⟨b', hb', hholds⟩ := hr.holds j l hj
    rw [Function.update_of_ne hji]
    exact ⟨b', hb', hholds.congr fun y hy => hkept ⟨l, hj, hy⟩ hji⟩
  · rintro j k y ⟨l, hj, hy⟩ ⟨l', hk, hy'⟩
    exact hr.apart j k y ⟨l, (hself hj).2, hy⟩ ⟨l', (hself hk).2, hy'⟩
  · intro y hy
    obtain ⟨hsome, hout⟩ := hr.removed y hy
    constructor
    · have hnot : y ∉ lst.head :: ns i := fun hmem => hout i ⟨lst, hi, hmem⟩
      dsimp only
      rwa [hcells y, if_neg hnot]
    · rintro j ⟨l, hj, hown⟩
      exact hout j ⟨l, (hself hj).2, hown⟩

theorem Repr.store (hr : s.Repr ns xs) (hl : s.NoLeak ns) {op : StoreOp ι D}
    (h : s.store op = some s') : ∃ ns', s'.Repr ns' (storeSeqs xs op) ∧ s'.NoLeak ns' := by
  cases op with
  | call op => exact hr.call hl h
  | delete i =>
      obtain ⟨lst, hi, -⟩ := Option.bind_eq_some_iff.1 h
      obtain ⟨t, ht, hcells, -, hothers, hremoved, hr'⟩ := hr.delete hi
      obtain rfl := Option.some.inj (ht.symm.trans h)
      refine ⟨ns, hr', fun y hy => ?_⟩
      rw [hcells y] at hy
      split at hy
      · exact absurd hy (by simp)
      rename_i hnot
      rw [hremoved]
      refine (hl y hy).imp_right ?_
      rintro ⟨j, l, hj, hown⟩
      have hji : j ≠ i := by
        rintro rfl
        obtain rfl := Option.some.inj (hj.symm.trans hi)
        exact hnot hown
      exact ⟨j, l, (hothers j hji).trans hj, hown⟩

/-! ## All sequences of calls -/

/-- The sequences that the operations of the calls and of `list_delete` yield. -/
def storedSeqs (tr : List (Move (Lists ι D) (StoreOp ι D))) : ι → List D :=
  (tr.map Move.label).foldl storeSeqs fun _ => []

/-- After every sequence of calls from an empty heap, in which `list_delete` may give lists up,
the nodes that are allocated are those of the lists and those that have been removed and not
freed; and `list_delete` of any list frees its nodes, each once, and no other. -/
theorem lists_accounted {C : Lists ι D → StoreOp ι D → Lists ι D → Prop} {s₀ : Lists ι D}
    {tr : List (Move (Lists ι D) (StoreOp ι D))} (h₀ : ∀ i, s₀.list i = none)
    (hheap : ∀ a, s₀.heap a = none) (hremoved : s₀.removed = []) (h : Run store C s₀ tr s) :
    ∃ ns, s.Repr ns (storedSeqs tr) ∧
      (∀ a, (s.heap a).isSome ↔ a ∈ s.removed ∨ ∃ i, s.Owns ns i a) ∧
      ∀ i lst, s.list i = some lst → ∃ t, s.store (.delete i) = some t ∧
        (∀ a, t.heap a = if a ∈ lst.head :: ns i then none else s.heap a) ∧ t.list i = none ∧
          (∀ j, j ≠ i → t.list j = s.list j) ∧
          t.Repr ns (Function.update (storedSeqs tr) i []) := by
  have hall : ∃ ns, s.Repr ns (storedSeqs tr) ∧ s.NoLeak ns := by
    refine h.history (I := fun tr s => ∃ ns, s.Repr ns (storedSeqs tr) ∧ s.NoLeak ns) ?_ ?_
    · obtain ⟨ns, hr⟩ := repr_of_run h₀ hremoved (.start (C := fun _ _ _ => True))
      refine ⟨ns, hr, fun a ha => ?_⟩
      rw [hheap a] at ha
      exact absurd ha (by simp)
    · rintro tr s op s' ⟨ns, hr, hl⟩ hs -
      rw [storedSeqs, List.map_append, List.foldl_append]
      exact hr.store hl hs
  obtain ⟨ns, hr, hl⟩ := hall
  refine ⟨ns, hr, fun a => hr.isSome_iff hl, fun i lst hi => ?_⟩
  obtain ⟨t, ht, hcells, hnone, hothers, -, hr'⟩ := hr.delete hi
  exact ⟨t, ht, hcells, hnone, hothers, hr'⟩

/-- The first of the two lists is given up. -/
theorem lists_accounted_two : ∃ (tr : _) (s : Lists ℕ ℕ),
    Run store (fun _ _ _ => True) noLists tr s ∧ tr.length = 8 ∧ ∃ ns, s.Repr ns (storedSeqs tr) ∧
      (∀ a, (s.heap a).isSome ↔ a ∈ s.removed ∨ ∃ i, s.Owns ns i a) ∧
      ∀ i lst, s.list i = some lst → ∃ t, s.store (.delete i) = some t ∧
        (∀ a, t.heap a = if a ∈ lst.head :: ns i then none else s.heap a) ∧ t.list i = none ∧
          (∀ j, j ≠ i → t.list j = s.list j) ∧
          t.Repr ns (Function.update (storedSeqs tr) i []) := by
  have hrun : (exec store (fun _ _ _ => True) noLists
      (twoLists.map .call ++ [.delete 0])).isSome = true := by decide
  obtain ⟨s, hs⟩ := Option.isSome_iff_exists.1 hrun
  obtain ⟨tr, hr, hls⟩ := exec_run hs
  refine ⟨tr, s, hr, ?_, lists_accounted (fun _ => rfl) (fun _ => rfl) rfl hr⟩
  have hlen := congrArg List.length hls
  rw [List.length_map] at hlen
  exact hlen

end Lists

end Yalnix
