import Yalnix.Sync.Semaphore

/-!
# Looking for a semaphore

sem_inc and sem_wait ask `list_index` for one node after the other and read its data at once.
The loop would end on data that is `NULL`, but what is `NULL` behind the last element is the
node. A search for an id that no semaphore has reads through it, and the calls never come to
their `return ERROR`.
-/

namespace Yalnix

namespace Kernel

/-- The nodes whose data the search for `id` reads, from its `i`-th turn on. `NULL` is `none`,
and what comes after reading its data is not defined. -/
def semNodes (t : Table Semaphore) (id : Int) (i : ℕ) : List (Option ℕ) :=
  match h : listIndex t.list i with
  | none => [none]
  | some a => if (t.cell a).id = id then [some a] else some a :: semNodes t id (i + 1)
termination_by t.list.length + 1 - i
decreasing_by
  have hle : ¬((i : Int) > t.list.length ∨ (i : Int) < 1) := by
    intro hout
    rw [listIndex, if_pos hout] at h
    exact absurd h (by simp)
  omega

/-- The call has added `d` to the count of the semaphore at `a`, and left the others. -/
def Counts (σ σ' : Kernel) (a : ℕ) (d : Int) : Prop :=
  (σ'.sems.cell a).count = (σ.sems.cell a).count + d ∧
    ∀ b, b ≠ a → σ'.sems.cell b = σ.sems.cell b

/-- sem_inc and sem_wait of process `p` work on the semaphore with the given id when there is
one, where a sem_wait that need not sleep returns 0, return `ERROR` and change nothing when
there is none, and read the data of nodes only. -/
structure SemTotal (σ : Kernel) (p : Pid) : Prop where
  nodes : none ∉ semNodes σ.sems (σ.reg 0).toInt 1
  found : ∀ a, σ.sems.find? (fun s => s.id = (σ.reg 0).toInt) = some a →
    (semNodes σ.sems (σ.reg 0).toInt 1).getLast? = some (some a) ∧
    (∃ σ', σ.sysCustom1 p = some (.ret 0, σ') ∧ σ.Counts σ' a 1) ∧
    (0 < (σ.sems.cell a).count → ∃ σ', σ.sysCustom2 p = some (.ret 0, σ')) ∧
    ∀ o σ', σ.sysCustom2 p = some (o, σ') → σ.Counts σ' a (-1)
  missing : σ.sems.find? (fun s => s.id = (σ.reg 0).toInt) = none →
    σ.sysCustom1 p = some (.ret error, σ) ∧ σ.sysCustom2 p = some (.ret error, σ)

variable {σ σ' : Kernel} {t : Table Semaphore} {id : Int} {i a : ℕ} {p : Pid} {o : Outcome}

/-! ## The search -/

/-- Behind the last element there is no node. -/
theorem semNodes_end (h : t.list.length ≤ i) : semNodes t id (i + 1) = [none] := by
  have hnull : listIndex t.list ((i + 1 : ℕ) : Int) = none := by
    rw [listIndex, if_pos (by omega)]
  unfold semNodes
  split
  · rfl
  · rename_i hsome
    exact absurd (hnull.symm.trans hsome) (by simp)

theorem semNodes_step (h : t.list[i]? = some a) : semNodes t id (i + 1) =
    if (t.cell a).id = id then [some a] else some a :: semNodes t id (i + 2) := by
  have hlt : i < t.list.length := (List.getElem?_eq_some_iff.1 h).1
  have hnode : listIndex t.list ((i + 1 : ℕ) : Int) = some a := by
    have hidx : (((i + 1 : ℕ) : Int) - 1).toNat = i := by omega
    rw [listIndex, if_neg (by omega), hidx, h]
  rw [semNodes]
  split
  · rename_i hnone
    exact absurd (hnode.symm.trans hnone) (by simp)
  · rename_i b hsome
    obtain rfl := Option.some.inj (hnode.symm.trans hsome)
    rfl

theorem drop_cons {l rest : List ℕ} (h : l.drop i = a :: rest) :
    l[i]? = some a ∧ l.drop (i + 1) = rest := by
  constructor
  · have hhead : (l.drop i)[0]? = some a := by rw [h]; rfl
    rwa [List.getElem?_drop] at hhead
  · rw [← List.tail_drop, h]
    rfl

/-- The search ends at the first semaphore with the id, and at `NULL` when there is none. -/
theorem semNodes_last : (semNodes t id (i + 1)).getLast? =
    some ((t.list.drop i).find? fun a => (t.cell a).id = id) := by
  induction hl : t.list.drop i generalizing i with
  | nil =>
      rw [semNodes_end (List.drop_eq_nil_iff.1 hl)]
      rfl
  | cons a rest ih =>
      obtain ⟨hnode, hrest⟩ := drop_cons hl
      rw [semNodes_step hnode]
      by_cases hid : (t.cell a).id = id
      · rw [if_pos hid, List.find?_cons_of_pos (by exact decide_eq_true hid)]
        rfl
      · rw [if_neg hid, List.find?_cons_of_neg (by simpa using hid), List.getLast?_cons, ih hrest]
        rfl

/-- Only the node that the search ends at can be `NULL`. -/
theorem none_mem_semNodes : none ∈ semNodes t id (i + 1) ↔
    (t.list.drop i).find? (fun a => (t.cell a).id = id) = none := by
  induction hl : t.list.drop i generalizing i with
  | nil =>
      rw [semNodes_end (List.drop_eq_nil_iff.1 hl)]
      simp
  | cons a rest ih =>
      obtain ⟨hnode, hrest⟩ := drop_cons hl
      rw [semNodes_step hnode]
      by_cases hid : (t.cell a).id = id
      · rw [if_pos hid, List.find?_cons_of_pos (by exact decide_eq_true hid)]
        simp
      · rw [if_neg hid, List.find?_cons_of_neg (by simpa using hid), List.mem_cons, ih hrest]
        simp

/-! ## The calls -/

/-- What the search reads is what the two calls find. -/
theorem semNodes_first : (semNodes t id 1).getLast? = some (t.find? fun s => s.id = id) :=
  semNodes_last (i := 0)

theorem Counts.of_write {x : Semaphore} {d : Int} (ha : a ∈ σ.sems.list)
    (h : σ'.sems = σ.sems.write a x) (hx : x.count = (σ.sems.cell a).count + d) :
    σ.Counts σ' a d := by
  constructor
  · rw [h, Table.cell_write_self ha, hx]
  · intro b hb
    rw [h, Table.cell_write_of_ne hb]

/-- A sem_inc on the semaphore at `a`. -/
theorem sysCustom1_counts (h : σ.sems.find? (fun s => s.id = (σ.reg 0).toInt) = some a) :
    ∃ σ', σ.sysCustom1 p = some (.ret 0, σ') ∧ σ.Counts σ' a 1 := by
  have ha := Table.mem_of_find? h
  unfold sysCustom1
  rw [h, Option.map_some]
  dsimp only
  split
  · exact ⟨_, rfl, .of_write ha rfl rfl⟩
  · have hready := fun τ q => (readyInsert_touches τ q).same .sems (by simp)
    exact ⟨_, rfl, .of_write ha (hready _ _).1 rfl⟩

theorem semWaitInsert_sems (σ : Kernel) (a : ℕ) (p : Pid) : ∃ ws,
    (σ.semWaitInsert a p).sems = σ.sems.write a { σ.sems.cell a with waiting := ws } :=
  ⟨_, rfl⟩

/-- A sem_wait on the semaphore at `a`. -/
theorem sysCustom2_counts (h : σ.sems.find? (fun s => s.id = (σ.reg 0).toInt) = some a)
    (hcall : σ.sysCustom2 p = some (o, σ')) : σ.Counts σ' a (-1) := by
  have ha := Table.mem_of_find? h
  unfold sysCustom2 at hcall
  rw [h, Option.bind_some] at hcall
  dsimp only at hcall
  split at hcall
  · have htouch : Touches [.queues, .contexts, .users] _ σ' :=
      block_touches (List.Subset.refl _) (fun τ _ _ _ h => .ret (.refl _ τ) h) hcall
    have hsems := (htouch.same .sems (by simp)).1
    obtain ⟨ws, hws⟩ := semWaitInsert_sems { σ with sems := σ.sems.write a { σ.sems.cell a with
      count := (σ.sems.cell a).count - 1 } } a p
    dsimp only at hws
    rw [Table.cell_write_self ha, Table.write_write] at hws
    exact .of_write ha (hsems.trans hws) rfl
  · obtain ⟨-, rfl⟩ := Prod.mk.inj (Option.some.inj hcall)
    exact .of_write ha rfl rfl

/-- A sem_wait on the semaphore at `a`, whose count is positive, does not sleep. -/
theorem sysCustom2_passes (h : σ.sems.find? (fun s => s.id = (σ.reg 0).toInt) = some a)
    (hpos : 0 < (σ.sems.cell a).count) : ∃ σ', σ.sysCustom2 p = some (.ret 0, σ') := by
  unfold sysCustom2
  rw [h, Option.bind_some]
  dsimp only
  rw [if_neg (by omega)]
  exact ⟨_, rfl⟩

/-- The calls are right about an id if and only if a semaphore has it. -/
theorem sem_total_iff : σ.SemTotal p ↔
    ∃ a ∈ σ.sems.list, (σ.sems.cell a).id = (σ.reg 0).toInt := by
  have hexists : (∃ a ∈ σ.sems.list, (σ.sems.cell a).id = (σ.reg 0).toInt) ↔
      σ.sems.find? (fun s => s.id = (σ.reg 0).toInt) ≠ none := by
    rw [Ne, Table.find?_eq_none]
    simp
  rw [hexists]
  constructor
  · intro h hnone
    exact h.nodes ((none_mem_semNodes (i := 0)).2 hnone)
  · intro hsome
    constructor
    · intro hnone
      exact hsome ((none_mem_semNodes (i := 0)).1 hnone)
    · intro a ha
      exact ⟨semNodes_first.trans (congrArg some ha), sysCustom1_counts ha,
        sysCustom2_passes ha, fun o σ' h => sysCustom2_counts ha h⟩
    · intro hnone
      exact absurd hnone hsome

/-- At the first sem_inc of the small machine there is no semaphore, and the search reads the
data of `NULL`. -/
theorem sem_null_read : ∃ σ, kernelStart smallBoot = some σ ∧
    none ∈ semNodes (σ.callState (smallCall .custom1 0 0 0)).sems 0 1 ∧
    ¬(σ.callState (smallCall .custom1 0 0 0)).SemTotal 0 := by
  have hrun : ((kernelStart smallBoot).map fun σ => decide (σ.sems.list = [])) = some true := by
    decide +kernel
  obtain ⟨σ, hσ, hP⟩ := Option.map_eq_some_iff.1 hrun
  have hempty : (σ.callState (smallCall .custom1 0 0 0)).sems.list = [] := of_decide_eq_true hP
  refine ⟨σ, hσ, none_mem_semNodes (i := 0).2 ?_, fun h => ?_⟩
  · rw [hempty]
    rfl
  · obtain ⟨a, ha, -⟩ := sem_total_iff.1 h
    rw [hempty] at ha
    exact absurd ha List.not_mem_nil

end Kernel

end Yalnix
