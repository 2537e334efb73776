import Yalnix.Lists.Refine

/-!
# Walks along a list

Many loops of the kernel start at `list_index (l, 1)` and follow `next` until it is `NULL`. The
last node of a list leads where the head led when the list was created, and nobody has written
that: the walk comes to an end only if the block that `malloc` returned for the head had a
`NULL` there. A loop that frees the current node and goes on, as `update_sleep_list` does,
reads `next` of a node that is no longer allocated.
-/

namespace Yalnix

/-- What the body of such a loop does at a node: it goes on; it leaves the loop, whatever it
removes from the list before that; or it removes the node, frees it and goes on. -/
inductive Turn where
  | on
  | leave
  | drop
  deriving DecidableEq

/-- How a walk ends: it has read `NULL`, the body has left the loop, it has read a node that is
not allocated, or it has not come to an end yet. -/
inductive WalkEnd where
  | null
  | left
  | fault
  | unfinished
  deriving DecidableEq

namespace NodeHeap

variable {D : Type*}

/-- The loop `while (cur != NULL) { ..; i++; cur = cur->next; }` with a body that does `turn` of
the data, for `fuel` turns at most: the data of the nodes that it visits, and how it ends. -/
def walk (turn : D → Turn) : ℕ → NodeHeap D → LinkedList → Int → ℕ → List D × WalkEnd
  | 0, _, _, _, _ => ([], .unfinished)
  | fuel + 1, h, lst, i, cur =>
      if cur = 0 then ([], .null)
      else
        match h cur with
        | none => ([], .fault)
        | some c =>
            let r : List D × WalkEnd :=
              match turn c.data with
              | .on => walk turn fuel h lst (i + 1) c.next
              | .leave => ([], .left)
              | .drop =>
                  match h.listRemove lst i with
                  | none => ([], .fault)
                  | some (rc, h, lst) =>
                      if rc = 0 then ([], .left)
                      else
                        -- `free (rc)` comes before `cur = cur->next`
                        let h : NodeHeap D := Function.update h rc none
                        match h.next cur with
                        | none => ([], .fault)
                        | some cur => walk turn fuel h lst (i - 1 + 1) cur
            (c.data :: r.1, r.2)

/-- The elements that the loop should visit: all of them up to the first that it leaves at. -/
def visited (turn : D → Turn) : List D → List D
  | [] => []
  | x :: xs => x :: if turn x = .leave then [] else visited turn xs

/-- The walk along a list with the elements `xs` visits what it should, in order, and then has
left the loop or has read `NULL`. -/
def WalksWell (turn : D → Turn) (h : NodeHeap D) (lst : LinkedList) (xs : List D) : Prop :=
  ∃ cur, h.listIndex lst 1 = some cur ∧ ∃ fuel, walk turn fuel h lst 1 cur =
    (visited turn xs, if ∃ x ∈ xs, turn x = .leave then .left else .null)

variable {turn : D → Turn} {h : NodeHeap D} {lst : LinkedList} {as bs ns : List ℕ}
  {xs zs : List D} {t b cur fuel n : ℕ} {x : D} {i : Int}

/-! ## Turns -/

theorem eq_some_of_data (hd : h.data b = some x) : ∃ c, h b = some c ∧ c.data = x :=
  Option.map_eq_some_iff.1 hd

theorem walk_on (hb : b ≠ 0) (hd : h.data b = some x) (hn : h.next b = some n)
    (hx : turn x = .on) : walk turn (fuel + 1) h lst i b =
      (x :: (walk turn fuel h lst (i + 1) n).1, (walk turn fuel h lst (i + 1) n).2) := by
  obtain ⟨c, hc, rfl⟩ := eq_some_of_data hd
  obtain ⟨c', hc', rfl⟩ := eq_some_of_next hn
  obtain rfl := Option.some.inj (hc.symm.trans hc')
  rw [walk, if_neg hb, hc]
  dsimp only
  rw [hx]

theorem walk_leave (hb : b ≠ 0) (hd : h.data b = some x) (hx : turn x = .leave) :
    walk turn (fuel + 1) h lst i b = ([x], .left) := by
  obtain ⟨c, hc, rfl⟩ := eq_some_of_data hd
  rw [walk, if_neg hb, hc]
  dsimp only
  rw [hx]

/-- A body that frees the current node makes the walk read it. -/
theorem walk_drop (hl : Holds h lst (as ++ b :: bs) xs t) (hd : h.data b = some x)
    (hx : turn x = .drop) :
    walk turn (fuel + 1) h lst (as.length + 1) b = ([x], .fault) := by
  have hlen := hl.len
  rw [List.length_append, List.length_cons] at hlen
  have hidx : ((as.length : Int) + 1 - 1).toNat = as.length := by omega
  have h₁ : 1 ≤ (as.length : Int) + 1 := by omega
  obtain ⟨a, h', ha, hrun, -⟩ := hl.listRemove h₁ (by omega)
  rw [hidx, List.getElem?_append_right (le_refl _), Nat.sub_self] at ha
  obtain rfl : b = a := Option.some.inj ha
  have hb : b ≠ 0 := by
    rintro rfl
    exact hl.null (List.mem_cons_of_mem _ (List.mem_append_right as List.mem_cons_self))
  obtain ⟨c, hc, rfl⟩ := eq_some_of_data hd
  have hfreed : NodeHeap.next (Function.update h' b none) b = none := by
    unfold next
    rw [Function.update_self]
    rfl
  rw [walk, if_neg hb, hc]
  dsimp only
  rw [hx]
  dsimp only
  rw [hrun]
  dsimp only
  rw [if_neg hb, hfreed]

/-- More turns do not change a walk that has come to an end. -/
theorem walk_succ (hend : (walk turn fuel h lst i cur).2 ≠ .unfinished) :
    walk turn (fuel + 1) h lst i cur = walk turn fuel h lst i cur := by
  induction fuel generalizing h lst i cur with
  | zero => exact absurd rfl hend
  | succ fuel ih =>
      rw [walk] at hend ⊢
      rw [walk]
      by_cases hcur : cur = 0
      · rw [if_pos hcur, if_pos hcur]
      rw [if_neg hcur] at hend ⊢
      rw [if_neg hcur]
      cases hc : h cur with
      | none => rfl
      | some c =>
          rw [hc] at hend
          dsimp only at hend ⊢
          cases hx : turn c.data with
          | on =>
              rw [hx] at hend
              dsimp only at hend ⊢
              rw [ih hend]
          | leave => rfl
          | drop =>
              rw [hx] at hend
              dsimp only at hend ⊢
              cases hrun : h.listRemove lst i with
              | none => rfl
              | some r =>
                  rw [hrun] at hend
                  dsimp only at hend ⊢
                  by_cases hr : r.1 = 0
                  · rw [if_pos hr, if_pos hr]
                  rw [if_neg hr] at hend ⊢
                  rw [if_neg hr]
                  cases hn : NodeHeap.next (Function.update r.2.1 r.1 none) cur with
                  | none => rfl
                  | some n =>
                      rw [hn] at hend
                      dsimp only at hend ⊢
                      rw [ih hend]

theorem walk_add (hend : (walk turn fuel h lst i cur).2 ≠ .unfinished) (n : ℕ) :
    walk turn (n + fuel) h lst i cur = walk turn fuel h lst i cur := by
  induction n with
  | zero => rw [Nat.zero_add]
  | succ n ih =>
      rw [Nat.add_right_comm, walk_succ (by rwa [ih]), ih]

/-! ## Along a list -/

/-- The rest `bs` of a list, where the walk has come to its first node: `zs` are the data. -/
structure Rest (h : NodeHeap D) (lst : LinkedList) (as bs : List ℕ) (xs zs : List D) (t cur : ℕ) :
    Prop where
  holds : Holds h lst (as ++ bs) xs t
  first : ∃ p, h.next p = some cur ∧ Chain h.next p bs t
  data : bs.map h.data = zs.map some

theorem Rest.nil (hr : Rest h lst as [] xs zs t cur) : cur = t ∧ zs = [] := by
  obtain ⟨p, hp, hchain⟩ := hr.first
  refine ⟨Option.some.inj (hp.symm.trans hchain), ?_⟩
  simpa using hr.data.symm

theorem Rest.cons (hr : Rest h lst as (b :: bs) xs zs t cur) : ∃ x zs' n, cur = b ∧ b ≠ 0 ∧
    zs = x :: zs' ∧ h.data b = some x ∧ h.next b = some n ∧
    Rest h lst (as ++ [b]) bs xs zs' t n := by
  obtain ⟨hl, ⟨p, hp, hchain⟩, hdata⟩ := hr
  have hb : b ≠ 0 := by
    rintro rfl
    exact hl.null (List.mem_cons_of_mem _ (List.mem_append_right as List.mem_cons_self))
  cases zs with
  | nil => simp at hdata
  | cons x zs' =>
      obtain ⟨hx, hrest⟩ := List.cons_eq_cons.1 hdata
      obtain ⟨n, hn⟩ := Option.isSome_iff_exists.1 (hchain.2.isSome List.mem_cons_self)
      refine ⟨x, zs', n, Option.some.inj (hp.symm.trans hchain.1), hb, rfl, hx, hn, ?_, ?_, hrest⟩
      · rwa [List.append_assoc]
      · exact ⟨b, hn, hchain.2⟩

theorem length_snoc (as : List ℕ) (b : ℕ) :
    (((as ++ [b]).length : ℕ) : Int) = as.length + 1 := by
  simp

/-- The walk leaves the loop at the first element that says so. -/
theorem Rest.leaves (hr : Rest h lst as bs xs zs t cur)
    (hdrop : ∀ x ∈ visited turn zs, turn x ≠ .drop) (hleave : ∃ x ∈ zs, turn x = .leave) :
    walk turn bs.length h lst (as.length + 1) cur = (visited turn zs, .left) := by
  induction bs generalizing as zs cur with
  | nil =>
      obtain ⟨-, rfl⟩ := hr.nil
      simp at hleave
  | cons b bs ih =>
      obtain ⟨x, zs', n, rfl, hb, rfl, hd, hn, hr'⟩ := hr.cons
      rw [List.length_cons, visited]
      rw [visited] at hdrop
      cases hx : turn x with
      | drop => exact absurd hx (hdrop x List.mem_cons_self)
      | leave =>
          rw [walk_leave hb hd hx]
          rfl
      | on =>
          rw [if_neg (by rw [hx]; simp)] at hdrop
          have hleave' : ∃ y ∈ zs', turn y = .leave := by
            obtain ⟨y, hy, hyl⟩ := hleave
            rcases List.mem_cons.1 hy with rfl | hy
            · rw [hx] at hyl
              exact absurd hyl (by simp)
            · exact ⟨y, hy, hyl⟩
          have := ih hr' (fun y hy => hdrop y (List.mem_cons_of_mem x hy)) hleave'
          rw [length_snoc] at this
          rw [walk_on hb hd hn hx, this, if_neg (by simp)]

/-- Nothing stops the walk before it has gone through the list. -/
theorem Rest.passes (hr : Rest h lst as bs xs zs t cur) (fuel : ℕ)
    (hon : ∀ x ∈ zs, turn x = .on) :
    walk turn (fuel + bs.length) h lst (as.length + 1) cur =
      (zs ++ (walk turn fuel h lst (as.length + bs.length + 1) t).1,
        (walk turn fuel h lst (as.length + bs.length + 1) t).2) := by
  induction bs generalizing as zs cur with
  | nil =>
      obtain ⟨rfl, rfl⟩ := hr.nil
      simp
  | cons b bs ih =>
      obtain ⟨x, zs', n, rfl, hb, rfl, hd, hn, hr'⟩ := hr.cons
      have := ih hr' fun y hy => hon y (List.mem_cons_of_mem x hy)
      have hpos : (as.length : Int) + 1 + bs.length + 1 =
          as.length + (bs.length + 1 : ℕ) + 1 := by
        omega
      rw [length_snoc, hpos] at this
      rw [List.length_cons, ← Nat.add_assoc, walk_on hb hd hn (hon x List.mem_cons_self), this]
      rfl

/-- A body that frees the current node and goes on ends the walk with a fault. -/
theorem Rest.faults (hr : Rest h lst as bs xs zs t cur)
    (hdrop : ∃ x ∈ visited turn zs, turn x = .drop) :
    (walk turn bs.length h lst (as.length + 1) cur).2 = .fault := by
  induction bs generalizing as zs cur with
  | nil =>
      obtain ⟨-, rfl⟩ := hr.nil
      simp [visited] at hdrop
  | cons b bs ih =>
      obtain ⟨x, zs', n, rfl, hb, rfl, hd, hn, hr'⟩ := hr.cons
      rw [List.length_cons]
      rw [visited] at hdrop
      obtain ⟨y, hy, hyd⟩ := hdrop
      cases hx : turn x with
      | drop => rw [walk_drop hr.holds hd hx]
      | leave =>
          rw [if_pos hx] at hy
          obtain rfl := List.mem_singleton.1 hy
          rw [hx] at hyd
          exact absurd hyd (by simp)
      | on =>
          rw [if_neg (by rw [hx]; simp)] at hy
          rcases List.mem_cons.1 hy with rfl | hy
          · rw [hx] at hyd
            exact absurd hyd (by simp)
          · have := ih hr' ⟨y, hy, hyd⟩
            rw [length_snoc] at this
            rw [walk_on hb hd hn hx]
            exact this

/-! ## Whole walks -/

theorem Holds.rest (hl : Holds h lst ns xs t) (hne : ns ≠ []) : ∃ cur,
    h.listIndex lst 1 = some cur ∧ Rest h lst [] ns xs xs t cur := by
  have hlen := hl.len
  have hpos := List.length_pos_iff.2 hne
  obtain ⟨a, ha, hrun⟩ := hl.listIndex (le_refl 1) (by omega)
  refine ⟨a, hrun, hl, ⟨lst.head, ?_, hl.chain⟩, hl.data⟩
  cases ns with
  | nil => exact absurd rfl hne
  | cons b bs =>
      obtain rfl : b = a := Option.some.inj ha
      exact hl.chain.1

theorem visited_of_on (hon : ∀ x ∈ xs, turn x ≠ .leave) : visited turn xs = xs := by
  induction xs with
  | nil => rfl
  | cons x xs ih =>
      rw [visited, if_neg (hon x List.mem_cons_self),
        ih fun y hy => hon y (List.mem_cons_of_mem x hy)]

/-- A walk along a well formed list goes well if and only if the list is empty, or the loop
frees no node that it goes on from and either leaves the list on the way or finds `NULL` at its
end. -/
theorem walksWell_iff (hl : Holds h lst ns xs t) : WalksWell turn h lst xs ↔
    xs = [] ∨ (∀ x ∈ visited turn xs, turn x ≠ .drop) ∧
      ((∃ x ∈ xs, turn x = .leave) ∨ t = 0) := by
  by_cases hne : ns = []
  · -- `list_index` yields `NULL` at once
    subst hne
    obtain rfl : xs = [] := List.length_eq_zero_iff.1 hl.length
    have hindex : h.listIndex lst 1 = some 0 := by
      rw [listIndex, if_pos]
      rw [hl.len]
      simp
    constructor
    · exact fun _ => .inl rfl
    · intro _
      exact ⟨0, hindex, 1, by simp [walk, visited]⟩
  have hxs : xs ≠ [] := by
    rintro rfl
    exact hne (List.length_eq_zero_iff.1 hl.length.symm)
  obtain ⟨cur, hindex, hr⟩ := hl.rest hne
  -- a body that neither leaves nor frees goes on
  have hturn : ∀ x, turn x ≠ .leave → turn x ≠ .drop → turn x = .on := by
    intro x h₁ h₂
    cases hx : turn x with
    | on => rfl
    | leave => exact absurd hx h₁
    | drop => exact absurd hx h₂
  constructor
  · rintro ⟨cur', hindex', fuel, hwalk⟩
    obtain rfl := Option.some.inj (hindex.symm.trans hindex')
    have hend : (walk turn fuel h lst 1 cur).2 ≠ .unfinished := by
      rw [hwalk]
      dsimp only
      split <;> simp
    right
    have hdrop : ∀ x ∈ visited turn xs, turn x ≠ .drop := by
      intro x hx hxd
      have hfault : (walk turn ns.length h lst 1 cur).2 = .fault := hr.faults ⟨x, hx, hxd⟩
      have hmore := walk_add (hfault.trans_ne (by simp)) fuel
      rw [Nat.add_comm, walk_add hend, hwalk] at hmore
      rw [← hmore] at hfault
      dsimp only at hfault
      split at hfault <;> simp at hfault
    refine ⟨hdrop, ?_⟩
    by_cases hleave : ∃ x ∈ xs, turn x = .leave
    · exact .inl hleave
    right
    have hno : ∀ x ∈ xs, turn x ≠ .leave := fun x hx hxl => hleave ⟨x, hx, hxl⟩
    rw [visited_of_on hno] at hdrop hwalk
    have hpass := hr.passes fuel
      fun x hx => hturn x (hno x hx) (hdrop x hx)
    have hsame : walk turn (fuel + ns.length) h lst 1 cur = (xs, .null) := by
      rw [Nat.add_comm, walk_add hend, hwalk, if_neg hleave]
    obtain ⟨hfst, hsnd⟩ := Prod.mk.inj (hsame.symm.trans hpass)
    have hnil := List.self_eq_append_right.1 hfst
    cases fuel with
    | zero => simp [walk] at hsnd
    | succ fuel =>
        by_contra ht
        rw [walk, if_neg ht] at hnil hsnd
        cases hc : h t with
        | none => simp [hc] at hsnd
        | some c => simp [hc] at hnil
  · rintro (rfl | ⟨hdrop, hstop⟩)
    · exact absurd rfl hxs
    by_cases hleave : ∃ x ∈ xs, turn x = .leave
    · refine ⟨cur, hindex, ns.length, ?_⟩
      rw [if_pos hleave]
      exact hr.leaves hdrop hleave
    · obtain rfl := hstop.resolve_left hleave
      have hno : ∀ x ∈ xs, turn x ≠ .leave := fun x hx hxl => hleave ⟨x, hx, hxl⟩
      rw [visited_of_on hno] at hdrop
      refine ⟨cur, hindex, 1 + ns.length, ?_⟩
      have hpass := hr.passes 1
        fun x hx => hturn x (hno x hx) (hdrop x hx)
      rw [if_neg hleave, visited_of_on hno]
      refine hpass.trans ?_
      simp [walk]

end NodeHeap

namespace Lists

open Transition NodeHeap

variable {ι D : Type*} {s : Lists ι D} {ns : ι → List ℕ} {xs : ι → List D} {i : ι}
  {lst : LinkedList} {block : Node D}

theorem Repr.walksWell_iff (hr : s.Repr ns xs) (turn : D → Turn) (hi : s.list i = some lst)
    (hb : s.initial i = some block) : WalksWell turn s.heap lst (xs i) ↔
      xs i = [] ∨ (∀ x ∈ visited turn (xs i), turn x ≠ .drop) ∧
        ((∃ x ∈ xs i, turn x = .leave) ∨ block.next = 0) := by
  obtain ⟨b, hb', hl⟩ := hr.holds i lst hi
  obtain rfl := Option.some.inj (hb.symm.trans hb')
  exact NodeHeap.walksWell_iff hl

variable [DecidableEq ι] {C : Lists ι D → ListOp ι D → Lists ι D → Prop} {s₀ : Lists ι D}
  {tr : List (Move (Lists ι D) (ListOp ι D))}

/-- After every sequence of calls and frees, a walk along a list goes well if and only if the
list is empty, or the loop frees no node that it goes on from and either leaves the list on the
way or the block of the head held `NULL` when the list was created. -/
theorem walks_iff (h₀ : ∀ i, s₀.list i = none) (hremoved : s₀.removed = [])
    (h : Run step C s₀ tr s) (turn : D → Turn) (hi : s.list i = some lst)
    (hb : s.initial i = some block) : WalksWell turn s.heap lst (seqs tr i) ↔
      seqs tr i = [] ∨ (∀ x ∈ visited turn (seqs tr i), turn x ≠ .drop) ∧
        ((∃ x ∈ seqs tr i, turn x = .leave) ∨ block.next = 0) := by
  obtain ⟨ns, hr⟩ := repr_of_run h₀ hremoved h
  exact hr.walksWell_iff turn hi hb

/-- The body of the loop of `update_sleep_list`. -/
def sleepTurn (s : SleepInfo) : Turn := if s.ticksLeft - 1 ≤ 0 then .drop else .on

/-- Three lists of sleepers. In the first nobody is due, but the block of the head held an address;
in the second the head held `NULL`, but the sleeper is due; the third is as it should be, after one
of its nodes has been removed, freed and used again. -/
def sleepLists : List (ListOp ℕ SleepInfo) :=
  [.create 0 8 ⟨⟨0, 0⟩, 40⟩, .insert 0 1 ⟨5, 2⟩ 16 ⟨⟨0, 0⟩, 0⟩,
    .create 1 24 ⟨⟨0, 0⟩, 0⟩, .insert 1 1 ⟨1, 3⟩ 32 ⟨⟨0, 0⟩, 0⟩,
    .create 2 48 ⟨⟨0, 0⟩, 0⟩, .insert 2 1 ⟨5, 4⟩ 56 ⟨⟨0, 0⟩, 8⟩, .insert 2 2 ⟨1, 5⟩ 64 ⟨⟨0, 0⟩, 0⟩,
    .insert 2 3 ⟨3, 6⟩ 72 ⟨⟨0, 0⟩, 24⟩, .remove 2 2, .free 64, .insert 2 3 ⟨6, 7⟩ 64 ⟨⟨1, 5⟩, 72⟩]

theorem sleepLists_run : ∃ tr s, Run step (fun _ _ _ => True) noLists tr s ∧
    seqs tr = sleepLists.foldl ListOp.onSeqs (fun _ => []) ∧
    ∀ i : Fin 3, ∃ lst block, s.list i = some lst ∧ s.initial i = some block ∧
      block.next = if i = 0 then 40 else 0 := by
  have hrun : ((exec step (fun _ _ _ => True) noLists sleepLists).map fun s =>
      decide (∀ i : Fin 3, (s.list i).isSome = true ∧
        (s.initial i).map Node.next = some (if i = 0 then 40 else 0))) = some true := by
    decide
  obtain ⟨s, hs, hP⟩ := Option.map_eq_some_iff.1 hrun
  obtain ⟨tr, hr, hls⟩ := exec_run hs
  refine ⟨tr, s, hr, by rw [seqs, hls], fun i => ?_⟩
  obtain ⟨hlist, hnext⟩ := of_decide_eq_true hP i
  obtain ⟨lst, hlst⟩ := Option.isSome_iff_exists.1 hlist
  obtain ⟨block, hblock, hb⟩ := Option.map_eq_some_iff.1 hnext
  exact ⟨lst, block, hlst, hblock, hb⟩

/-- The theorem on the third list. -/
theorem walks_iff_third : ∃ (tr : _) (s : Lists ℕ SleepInfo) (lst : _),
    Run step (fun _ _ _ => True) noLists tr s ∧ s.list 2 = some lst ∧
    seqs tr 2 = [⟨5, 4⟩, ⟨3, 6⟩, ⟨6, 7⟩] ∧ WalksWell sleepTurn s.heap lst (seqs tr 2) := by
  obtain ⟨tr, s, hr, hseqs, hlists⟩ := sleepLists_run
  obtain ⟨lst, block, hlst, hblock, hnext⟩ := hlists 2
  have hthird : seqs tr 2 = [⟨5, 4⟩, ⟨3, 6⟩, ⟨6, 7⟩] := by
    rw [hseqs]
    decide
  have hturns : ∀ x ∈ visited sleepTurn (seqs tr 2), sleepTurn x ≠ .drop := by
    rw [hthird]
    decide
  exact ⟨tr, s, lst, hr, hlst, hthird,
    (walks_iff (fun _ => rfl) rfl hr sleepTurn hlst hblock).2 (.inr ⟨hturns, .inr hnext⟩)⟩

/-- Neither of the first two lists can be walked through by `update_sleep_list`. -/
theorem sleep_walks_astray : ∃ (tr : _) (s : Lists ℕ SleepInfo),
    Run step (fun _ _ _ => True) noLists tr s ∧
    (∃ lst, s.list 0 = some lst ∧ seqs tr 0 = [⟨5, 2⟩] ∧
      ¬WalksWell sleepTurn s.heap lst (seqs tr 0)) ∧
    ∃ lst, s.list 1 = some lst ∧ seqs tr 1 = [⟨1, 3⟩] ∧
      ¬WalksWell sleepTurn s.heap lst (seqs tr 1) := by
  obtain ⟨tr, s, hr, hseqs, hlists⟩ := sleepLists_run
  obtain ⟨ns, hrepr⟩ := repr_of_run (fun _ => rfl) rfl hr
  refine ⟨tr, s, hr, ?_, ?_⟩
  · obtain ⟨lst, block, hlst, hblock, hnext⟩ := hlists 0
    have hseq : seqs tr 0 = [⟨5, 2⟩] := by
      rw [hseqs]
      decide
    refine ⟨lst, hlst, hseq, fun hwell => ?_⟩
    have hcond := (hrepr.walksWell_iff sleepTurn hlst hblock).1 hwell
    have hnull : block.next = 40 := hnext
    change seqs tr 0 = [] ∨ (∀ x ∈ visited sleepTurn (seqs tr 0), _) ∧
      ((∃ x ∈ seqs tr 0, _) ∨ _) at hcond
    rw [hseq, hnull] at hcond
    exact absurd hcond (by decide)
  · obtain ⟨lst, block, hlst, hblock, hnext⟩ := hlists 1
    have hseq : seqs tr 1 = [⟨1, 3⟩] := by
      rw [hseqs]
      decide
    refine ⟨lst, hlst, hseq, fun hwell => ?_⟩
    have hcond := (hrepr.walksWell_iff sleepTurn hlst hblock).1 hwell
    have hnull : block.next = 0 := hnext
    change seqs tr 1 = [] ∨ (∀ x ∈ visited sleepTurn (seqs tr 1), _) ∧
      ((∃ x ∈ seqs tr 1, _) ∨ _) at hcond
    rw [hseq, hnull] at hcond
    exact absurd hcond (by decide)

end Lists

end Yalnix
