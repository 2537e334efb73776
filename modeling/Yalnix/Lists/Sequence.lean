import Mathlib.Data.List.InsertIdx
import Yalnix.Model.LinkedList

/-!
# A list as a sequence

`Holds h lst ns xs t` says that the list `lst` in the heap `h` is well formed: its `len` nodes
behind the head are `ns`, they hold the data `xs`, and the last one, or the head when there is
none, leads on to `t`. No operation on the list changes `t`, which is what the head held when
the list was created. Each operation has one lemma, which also says which nodes it writes.
-/

namespace Yalnix

namespace NodeHeap

variable {D : Type*} {h h' : NodeHeap D} {lst : LinkedList} {ns : List ℕ} {xs : List D}
  {t a k : ℕ} {x d : D} {location : Int}

/-- The first `len` nodes of `lst` behind its head are `ns`, with the data `xs`, and the last
one leads to `t`. -/
structure Holds (h : NodeHeap D) (lst : LinkedList) (ns : List ℕ) (xs : List D) (t : ℕ) :
    Prop where
  len : lst.len = ns.length
  chain : Chain h.next lst.head ns t
  data : ns.map h.data = xs.map some
  nodup : (lst.head :: ns).Nodup
  null : 0 ∉ lst.head :: ns

theorem next_congr (he : h' a = h a) : h'.next a = h.next a := by
  unfold next
  rw [he]

theorem data_congr (he : h' a = h a) : h'.data a = h.data a := by
  unfold data
  rw [he]

theorem eq_some_of_next {b : ℕ} (he : h.next a = some b) : ∃ c, h a = some c ∧ c.next = b :=
  Option.map_eq_some_iff.1 he

namespace Holds

theorem length (hl : Holds h lst ns xs t) : xs.length = ns.length := by
  have := congrArg List.length hl.data
  simpa using this.symm

/-- The nodes of the list are allocated. -/
theorem isSome (hl : Holds h lst ns xs t) (ha : a ∈ lst.head :: ns) : (h a).isSome := by
  have := hl.chain.isSome ha
  unfold next at this
  rwa [Option.isSome_map] at this

/-- A list whose nodes have not been written is as before. -/
theorem congr (hl : Holds h lst ns xs t) (he : ∀ a ∈ lst.head :: ns, h' a = h a) :
    Holds h' lst ns xs t := by
  obtain ⟨hlen, hchain, hdata, hnodup, hnull⟩ := hl
  refine ⟨hlen, hchain.congr fun a ha => next_congr (he a ha), ?_, hnodup, hnull⟩
  rw [← hdata]
  apply List.map_congr_left
  intro a ha
  exact data_congr (he a (List.mem_cons_of_mem _ ha))

theorem getElem_data (hl : Holds h lst ns xs t) (ha : ns[k]? = some a) : ∃ x, xs[k]? = some x ∧
    h.data a = some x := by
  have hk := congrArg (fun l : List (Option D) => l[k]?) hl.data
  simp only [List.getElem?_map, ha, Option.map_some] at hk
  obtain ⟨x, hx, he⟩ := Option.map_eq_some_iff.1 hk.symm
  exact ⟨x, hx, he.symm⟩

/-! ## The operations -/

/-- `list_index` yields the node at a position in the list. -/
theorem listIndex (hl : Holds h lst ns xs t) (h₁ : 1 ≤ location) (h₂ : location ≤ lst.len) :
    ∃ a, ns[(location - 1).toNat]? = some a ∧ h.listIndex lst location = some a := by
  have hlen := hl.len
  obtain ⟨k, rfl⟩ : ∃ k : ℕ, location = k + 1 := ⟨(location - 1).toNat, by omega⟩
  have hk : k < ns.length := by omega
  have hsub : ((k : Int) + 1 - 1).toNat = k := by omega
  have hnat : ((k : Int) + 1).toNat = k + 1 := by omega
  refine ⟨ns[k], ?_, ?_⟩
  · rw [hsub, List.getElem?_eq_getElem hk]
  · rw [NodeHeap.listIndex, if_neg (by omega), hnat, hl.chain.follow_eq hk,
      List.getElem?_cons_succ, List.getElem?_eq_getElem hk]

/-- The list when the cell `a` with the datum `d` has been linked in behind the node `p`. -/
theorem linked {as bs : List ℕ} {p : ℕ} {c : Node D} (hl : Holds h lst (as ++ bs) xs t)
    (ha : a ≠ 0) (hnew : a ∉ lst.head :: (as ++ bs))
    (hp : follow h.next as.length lst.head = some p) (hc : h p = some c)
    (hp' : h' p = some ⟨c.data, a⟩) (ha' : h' a = some ⟨d, c.next⟩)
    (he : ∀ y, y ≠ p → y ≠ a → h' y = h y) :
    Holds h' ⟨lst.head, lst.len + 1⟩ ((as ++ bs).insertIdx as.length a)
      (xs.insertIdx as.length d) t := by
  have hins : (as ++ bs).insertIdx as.length a = as ++ a :: bs :=
    List.modifyTailIdx_add (fun l => a :: l) 0 as bs
  have hperm : List.Perm (as ++ a :: bs) (a :: (as ++ bs)) := List.perm_middle
  obtain ⟨hlen, hchain, hdata, hnodup, hnull⟩ := hl
  have hnext : h.next p = some c.next := by
    unfold next
    rw [hc]
    rfl
  rw [hins]
  refine ⟨?_, ?_, ?_, ?_, ?_⟩
  · rw [hperm.length_eq, List.length_cons]
    dsimp only
    omega
  · refine hchain.insert hnodup hp hnew ?_ ?_ fun y hyp hya => next_congr (he y hyp hya)
    · unfold next
      rw [hp']
      rfl
    · rw [hnext]
      unfold next
      rw [ha']
      rfl
  · -- the datum of `p` is the same
    have hold : (as ++ bs).map h'.data = (as ++ bs).map h.data := by
      apply List.map_congr_left
      intro y hy
      have hya : y ≠ a := ne_of_mem_of_not_mem (List.mem_cons_of_mem _ hy) hnew
      by_cases hyp : y = p
      · subst hyp
        unfold NodeHeap.data
        rw [hp', hc]
        rfl
      · exact data_congr (he y hyp hya)
    have hda : h'.data a = some d := by
      unfold NodeHeap.data
      rw [ha']
      rfl
    rw [← hins, List.map_insertIdx, List.map_insertIdx, hold, hda, hdata]
  · have hall : List.Perm (lst.head :: (as ++ a :: bs)) (a :: lst.head :: (as ++ bs)) :=
      (hperm.cons lst.head).trans (.swap _ _ _)
    rw [hall.nodup_iff]
    exact List.nodup_cons.2 ⟨hnew, hnodup⟩
  · intro h₀
    rcases List.mem_cons.1 h₀ with h₀ | h₀
    · exact hnull (h₀ ▸ List.mem_cons_self)
    · rcases List.mem_cons.1 (hperm.mem_iff.1 h₀) with h₀ | h₀
      · exact ha h₀.symm
      · exact hnull (List.mem_cons_of_mem _ h₀)

/-- `list_insert` puts the new node at a position in the list or behind its last one. -/
theorem listInsert (hl : Holds h lst ns xs t) (d : D) (block : Node D) (ha : a ≠ 0)
    (hfresh : h a = none) (h₁ : 1 ≤ location) (h₂ : location ≤ lst.len + 1) : ∃ h',
    h.listInsert lst location d a block = some (0, h', ⟨lst.head, lst.len + 1⟩) ∧
    Holds h' ⟨lst.head, lst.len + 1⟩ (ns.insertIdx (location - 1).toNat a)
      (xs.insertIdx (location - 1).toNat d) t ∧
    ∀ y, y ∉ lst.head :: ns → y ≠ a → h' y = h y := by
  have hlen := hl.len
  obtain ⟨k, rfl⟩ : ∃ k : ℕ, location = k + 1 := ⟨(location - 1).toNat, by omega⟩
  have hk : k ≤ ns.length := by omega
  have hsub : ((k : Int) + 1 - 1).toNat = k := by omega
  -- the block from `malloc` is not one of the nodes
  have hnew : a ∉ lst.head :: ns := by
    intro hmem
    have := hl.isSome hmem
    rw [hfresh] at this
    exact absurd this (by simp)
  have hblock : ∀ y, y ≠ a → (Function.update h a (some block) : NodeHeap D) y = h y :=
    fun y hy => Function.update_of_ne hy _ _
  have hl₀ := hl.congr fun y hy => hblock y (ne_of_mem_of_not_mem hy hnew)
  obtain ⟨as, bs, rfl, rfl⟩ : ∃ as bs, ns = as ++ bs ∧ as.length = k :=
    ⟨ns.take k, ns.drop k, (List.take_append_drop k ns).symm, List.length_take_of_le hk⟩
  obtain ⟨p, hp, hmem, -⟩ := hl₀.chain.rest
  have hpns : p ∈ lst.head :: (as ++ bs) := List.mem_append_left bs hmem
  have hpa : p ≠ a := ne_of_mem_of_not_mem hpns hnew
  obtain ⟨c, hc⟩ := Option.isSome_iff_exists.1 (hl₀.isSome hpns)
  rw [hsub]
  refine ⟨Function.update (Function.update (Function.update h a (some block)) p
    (some ⟨c.data, a⟩)) a (some ⟨d, c.next⟩), ?_, ?_, ?_⟩
  · rw [NodeHeap.listInsert, if_neg (by omega), if_neg ha, hsub]
    dsimp only
    rw [hp, Option.bind_some, hc]
    rfl
  · apply hl₀.linked ha hnew hp hc
    · rw [Function.update_of_ne hpa, Function.update_self]
    · rw [Function.update_self]
    · intro y hyp hya
      rw [Function.update_of_ne hya, Function.update_of_ne hyp]
  · intro y hy hya
    rw [Function.update_of_ne hya, Function.update_of_ne (ne_of_mem_of_not_mem hpns hy).symm,
      Function.update_of_ne hya]

/-- The list when the cell `a` behind the node `p` has been unlinked. -/
theorem unlinked {as bs : List ℕ} {p : ℕ} {c v : Node D} (hl : Holds h lst (as ++ a :: bs) xs t)
    (hp : follow h.next as.length lst.head = some p) (hc : h p = some c) (ha : h a = some v)
    (hp' : h' p = some ⟨c.data, v.next⟩) (he : ∀ y, y ≠ p → h' y = h y) :
    Holds h' ⟨lst.head, lst.len - 1⟩ (as ++ bs) (xs.eraseIdx as.length) t := by
  have hsub : List.Sublist (lst.head :: (as ++ bs)) (lst.head :: (as ++ a :: bs)) :=
    ((List.sublist_cons_self a bs).append_left as).cons_cons lst.head
  obtain ⟨hlen, hchain, hdata, hnodup, hnull⟩ := hl
  refine ⟨?_, ?_, ?_, hsub.nodup hnodup, fun h₀ => hnull (hsub.subset h₀)⟩
  · rw [List.length_append, List.length_cons] at hlen
    rw [List.length_append]
    dsimp only
    omega
  · refine hchain.remove hnodup hp ?_ fun y hy => next_congr (he y hy)
    unfold next
    rw [hp', ha]
    rfl
  · have hsame : ∀ y, h'.data y = h.data y := by
      intro y
      by_cases hy : y = p
      · subst hy
        unfold NodeHeap.data
        rw [hp', hc]
        rfl
      · exact data_congr (he y hy)
    have herase : (as ++ a :: bs).eraseIdx as.length = as ++ bs := by
      rw [List.eraseIdx_append_of_length_le (le_refl _), Nat.sub_self]
      rfl
    rw [← herase, ← List.eraseIdx_map, ← List.eraseIdx_map, funext hsame, hdata]

/-- `list_remove` takes the node at a position out of the list. -/
theorem listRemove (hl : Holds h lst ns xs t) (h₁ : 1 ≤ location) (h₂ : location ≤ lst.len) :
    ∃ a h', ns[(location - 1).toNat]? = some a ∧
    h.listRemove lst location = some (a, h', ⟨lst.head, lst.len - 1⟩) ∧
    Holds h' ⟨lst.head, lst.len - 1⟩ (ns.eraseIdx (location - 1).toNat)
      (xs.eraseIdx (location - 1).toNat) t ∧
    a ∉ lst.head :: ns.eraseIdx (location - 1).toNat ∧ h'.data a = h.data a ∧
    ∀ y, y ∉ lst.head :: ns → h' y = h y := by
  have hlen := hl.len
  obtain ⟨k, rfl⟩ : ∃ k : ℕ, location = k + 1 := ⟨(location - 1).toNat, by omega⟩
  have hk : k < ns.length := by omega
  have hsub : ((k : Int) + 1 - 1).toNat = k := by omega
  obtain ⟨as, a, bs, rfl, rfl⟩ : ∃ as a bs, ns = as ++ a :: bs ∧ as.length = k :=
    ⟨ns.take k, ns[k], ns.drop (k + 1), by simp, List.length_take_of_le hk.le⟩
  obtain ⟨p, hp, hmem, hrest⟩ := hl.chain.rest
  have hpns : p ∈ lst.head :: (as ++ a :: bs) := List.mem_append_left (a :: bs) hmem
  obtain ⟨c, hc, hca⟩ := eq_some_of_next hrest.1
  have hans : a ∈ as ++ a :: bs := List.mem_append_right as List.mem_cons_self
  obtain ⟨v, hv⟩ := Option.isSome_iff_exists.1 (hl.isSome (List.mem_cons_of_mem _ hans))
  have herase : (as ++ a :: bs).eraseIdx as.length = as ++ bs := by
    rw [List.eraseIdx_append_of_length_le (le_refl _), Nat.sub_self]
    rfl
  have hnodup : (a :: lst.head :: (as ++ bs)).Nodup := by
    have hperm : List.Perm (lst.head :: (as ++ a :: bs)) (a :: lst.head :: (as ++ bs)) :=
      (List.perm_middle.cons lst.head).trans (.swap _ _ _)
    exact hperm.nodup_iff.1 hl.nodup
  have hnot := (List.nodup_cons.1 hnodup).1
  rw [hsub, herase]
  refine ⟨a, Function.update h p (some ⟨c.data, v.next⟩), ?_, ?_, ?_, hnot, ?_, ?_⟩
  · rw [List.getElem?_append_right (le_refl _), Nat.sub_self]
    rfl
  · rw [NodeHeap.listRemove, if_neg (by omega), hsub, hp, Option.bind_some, hc, Option.bind_some,
      hca, hv]
    rfl
  · apply hl.unlinked hp hc hv
    · rw [Function.update_self]
    · intro y hy
      rw [Function.update_of_ne hy]
  · -- the removed node has not been written
    apply data_congr
    rw [Function.update_of_ne]
    rintro rfl
    rcases List.mem_cons.1 hmem with hhead | hmem
    · exact hnot (hhead ▸ List.mem_cons_self)
    · exact hnot (List.mem_cons_of_mem _ (List.mem_append_left bs hmem))
  · intro y hy
    rw [Function.update_of_ne (ne_of_mem_of_not_mem hpns hy).symm]

end Holds

end NodeHeap

end Yalnix
