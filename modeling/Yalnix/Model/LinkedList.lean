import Yalnix.Library.Chain
import Yalnix.Library.Run
import Yalnix.Model.Hardware

/-!
# The nodes of the lists

This module embeds `list.c` once more, with its nodes. The heap holds the nodes that are
allocated, `NULL` is the address 0, and an access to a node that is not allocated has no defined
effect. What a node that `malloc` returns holds is whatever it held before. `len` is not bounded:
there is no memory for 2^31 nodes.

`Lists` is a collection of lists and the nodes that have been removed from them: a list is
created as its users do it, with a head from `malloc` and `len` 0, and a node that has been
removed can be freed.
-/

namespace Yalnix

/-- `struct link_node`. -/
structure Node (D : Type*) where
  data : D
  next : ℕ

/-- `struct linked_list`. -/
structure LinkedList where
  head : ℕ
  len : Int

/-- What the nodes that are allocated hold. -/
abbrev NodeHeap (D : Type*) := ℕ → Option (Node D)

namespace NodeHeap

variable {D : Type*}

/-- `(*curr).next`. -/
def next (h : NodeHeap D) (curr : ℕ) : Option ℕ := (h curr).map Node.next

/-- `(*curr).data`. -/
def data (h : NodeHeap D) (curr : ℕ) : Option D := (h curr).map Node.data

/-- `list_insert`, when `malloc` returns the address `node` of a block with contents `block`. -/
def listInsert (h : NodeHeap D) (lst : LinkedList) (location : Int) (data : D) (node : ℕ)
    (block : Node D) : Option (Int × NodeHeap D × LinkedList) :=
  if location > lst.len + 1 ∨ location < 1 then some (error, h, lst)
  else if node = 0 then some (error, h, lst)
  else
    let h : NodeHeap D := Function.update h node (some block)
    (follow h.next (location - 1).toNat lst.head).bind fun curr =>
      (h curr).map fun c =>
        let h := Function.update h curr (some { c with next := node })
        (0, Function.update h node (some ⟨data, c.next⟩), { lst with len := lst.len + 1 })

/-- `list_remove`. The node is not freed. -/
def listRemove (h : NodeHeap D) (lst : LinkedList) (location : Int) :
    Option (ℕ × NodeHeap D × LinkedList) :=
  if location > lst.len ∨ location < 1 then some (0, h, lst)
  else
    (follow h.next (location - 1).toNat lst.head).bind fun curr =>
      (h curr).bind fun c =>
        (h c.next).map fun tmp =>
          (c.next, Function.update h curr (some { c with next := tmp.next }),
            { lst with len := lst.len - 1 })

/-- `list_index`. -/
def listIndex (h : NodeHeap D) (lst : LinkedList) (location : Int) : Option ℕ :=
  if location > lst.len ∨ location < 1 then some 0
  else follow h.next location.toNat lst.head

/-- The loop of `list_delete` over `n` nodes from `nxt` on: each is freed when its link has been
read. -/
def deleteLoop : ℕ → NodeHeap D → ℕ → Option (NodeHeap D)
  | 0, h, _ => some h
  | n + 1, h, nxt => (h.next nxt).bind fun next => deleteLoop n (Function.update h nxt none) next

/-- `list_delete`. The head is freed with the nodes, and `lst` still points to it. -/
def listDelete (h : NodeHeap D) (lst : LinkedList) : Option (Int × NodeHeap D × LinkedList) :=
  (deleteLoop (lst.len + 1).toNat h lst.head).map fun h => (0, h, { lst with len := 0 })

end NodeHeap

/-! ## Collections of lists -/

/-- What a call returns: the code of `list_insert`, or the pointer of the other two. -/
inductive ListResult where
  | code (rc : Int)
  | node (a : ℕ)
  | none

/-- The calls on lists that are named by `ι`, with the answer of `malloc`, and `free` of a
node. -/
inductive ListOp (ι D : Type*) where
  | create (i : ι) (node : ℕ) (block : Node D)
  | insert (i : ι) (location : Int) (data : D) (node : ℕ) (block : Node D)
  | remove (i : ι) (location : Int)
  | index (i : ι) (location : Int)
  | free (a : ℕ)

/-- The lists that have been created, and the heap. History: `removed`, the nodes that
`list_remove` has returned and that have not been freed; `initial`, what the head of a list
held when it was created. -/
structure Lists (ι D : Type*) where
  heap : NodeHeap D
  list : ι → Option LinkedList
  removed : List ℕ
  initial : ι → Option (Node D)

namespace Lists

variable {ι D : Type*} [DecidableEq ι]

/-- `malloc` can return the block at `a`. -/
def Fresh (s : Lists ι D) (a : ℕ) : Prop := a ≠ 0 ∧ (s.heap a).isNone

instance (s : Lists ι D) (a : ℕ) : Decidable (s.Fresh a) := inferInstanceAs (Decidable (_ ∧ _))

/-- The call `op`: what it returns, and the lists after it. -/
def act (s : Lists ι D) : ListOp ι D → Option (ListResult × Lists ι D)
  | .create i node block =>
      if (s.list i).isNone ∧ s.Fresh node then
        some (.none, { s with
          heap := Function.update s.heap node (some block)
          list := Function.update s.list i (some ⟨node, 0⟩)
          initial := Function.update s.initial i (some block) })
      else none
  | .insert i location data node block =>
      if node = 0 ∨ s.Fresh node then
        (s.list i).bind fun lst => (s.heap.listInsert lst location data node block).map fun r =>
          (.code r.1, { s with heap := r.2.1, list := Function.update s.list i (some r.2.2) })
      else none
  | .remove i location =>
      (s.list i).bind fun lst => (s.heap.listRemove lst location).map fun r =>
        (.node r.1, { s with
          heap := r.2.1
          list := Function.update s.list i (some r.2.2)
          removed := if r.1 = 0 then s.removed else r.1 :: s.removed })
  | .index i location =>
      (s.list i).bind fun lst => (s.heap.listIndex lst location).map fun a => (.node a, s)
  | .free a =>
      if a ∈ s.removed then
        some (.none, { s with
          heap := Function.update s.heap a none, removed := s.removed.erase a })
      else none

/-- The lists after the call `op`. -/
def step (s : Lists ι D) (op : ListOp ι D) : Option (Lists ι D) := (s.act op).map Prod.snd

end Lists

end Yalnix
