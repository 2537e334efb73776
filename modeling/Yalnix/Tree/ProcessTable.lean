import Mathlib.Tactic.IntervalCases
import Yalnix.Memory.Fault
import Yalnix.Memory.Fork
import Yalnix.Placement.Known
import Yalnix.Tree.Links
import Yalnix.Tree.Reaping

/-!
# The process table

`next_pid` only grows, and `sys_Fork` writes `pcb_table[next_pid]` without a test, while
`get_pcb` tests its index. `pcbWrites` and `pcbReads` are the indices that a step writes
and reads, and `pcbEntries` lists the entries that a run has written. As long as `next_pid`
is below `MAX_PROC` when a Fork has its PCB, the table is used well: the links of the
processes name pids that have been handed out, and each of these has its entry. What an Exit
reads behind the children need not be such a pid.
-/

namespace Yalnix

open Transition

namespace Kernel

/-! ## The accesses of a step -/

/-- The step is a Fork for whose child a PCB can be allocated. -/
def CreatesPcb (σ : Kernel) (l : Label) : Prop :=
  σ.userMode = true ∧ l.call = some .fork ∧ σ.activeProc ≠ none ∧
    (σ.begin l).malloc.1.ok = true

instance (σ : Kernel) (l : Label) : Decidable (σ.CreatesPcb l) :=
  inferInstanceAs (Decidable (_ ∧ _ ∧ _ ∧ _))

/-- The indices that the Exit of `p` looks up with `get_pcb`: the children and what the walk reads
behind them, and the parent once the death has been recorded. -/
def exitReads (σ : Kernel) (p : Pid) (status : Word) : List Int :=
  σ.exitWalk p ++
    if (σ.bereaved p p).ppid = -1 ∨
        (insertDeadList { σ with family := σ.bereaved p } (σ.bereaved p p).ppid p status).1 ≠ 0
      then [] else [(σ.bereaved p p).ppid]

/-- The index that the step writes. -/
def pcbWrites (σ : Kernel) (l : Label) : List Int :=
  if σ.CreatesPcb l then [σ.nextPid] else []

/-- The indices that the step reads. -/
def pcbReads (σ : Kernel) (l : Label) : List Int :=
  (σ.exiting l).elim [] fun x => (σ.begin l).exitReads x.1 x.2

/-- The entries that the boot and the run have written, oldest first. The entry `i` gets the
PCB of process `i`. -/
def pcbEntries (tr : List (Move Kernel Label)) : List Int :=
  [0, idle] ++ tr.flatMap fun m => m.before.pcbWrites m.label

/-- The next step stays inside the table, and `get_pcb` finds the PCB that it is asked
for: the pid passes its test, and the entry has been written once, for that process. -/
structure TableSafe (tr : List (Move Kernel Label)) (σ : Kernel) (l : Label) : Prop where
  inside : ∀ i ∈ σ.pcbWrites l ++ σ.pcbReads l, 0 ≤ i ∧ i < maxProc
  found : ∀ i ∈ σ.pcbReads l, σ.getPcb i = some i ∧ (pcbEntries tr).count i = 1

variable {σ σ' τ : Kernel} {l : Label} {p : Pid} {o : Outcome}

theorem getPcb_eq_some {i : Pid} :
    σ.getPcb i = some i ↔ 0 ≤ i ∧ i < maxProc ∧ i < σ.nextPid := by
  unfold getPcb Pid at *
  split
  · simp only [reduceCtorEq, false_iff]
    omega
  split
  · simp only [true_iff]
    omega
  · simp only [reduceCtorEq, false_iff]
    omega

theorem getPcb_or (σ : Kernel) (i : Pid) : σ.getPcb i = none ∨ σ.getPcb i = some i := by
  cases h : σ.getPcb i with
  | none => exact .inl rfl
  | some j => exact .inr (congrArg some (getPcb_some h).symm)

/-! ## The accesses are those of the code -/

/-- The lookups of the walk succeed if and only if `get_pcb` finds all that it reads. -/
theorem orphan_isSome_iff {cs : List Pid} {family : Pid → Family} :
    (σ.orphan cs family).isSome = true ↔ ∀ c ∈ cs, σ.getPcb c = some c := by
  induction cs generalizing family with
  | nil => simp [orphan]
  | cons c cs ih =>
      rw [orphan, List.forall_mem_cons]
      rcases σ.getPcb_or c with hc | hc
      · simp [hc]
      · rw [hc, Option.bind_some, ih]
        simp

/-- Exit gets as far as to the frames if and only if `get_pcb` finds every process that
`exitReads` lists. -/
theorem exitReads_found_iff {status : Word} :
    (∀ i ∈ σ.exitReads p status, σ.getPcb i = some i) ↔
      ((σ.orphan (σ.exitWalk p) σ.family).bind fun family =>
        tellParent { σ with family := family } p status).isSome = true := by
  have hwalk : (σ.orphan (σ.exitWalk p) σ.family).isSome = true ↔
      ∀ c ∈ σ.exitWalk p, σ.getPcb c = some c := orphan_isSome_iff
  unfold exitReads
  rw [List.forall_mem_append, ← hwalk]
  cases horphan : σ.orphan (σ.exitWalk p) σ.family with
  | none => simp
  | some family =>
      obtain rfl : σ.bereaved p = family := funext fun q => (orphan_eq horphan q).symm
      simp only [Option.isSome_some, true_and, Option.bind_some]
      unfold tellParent
      dsimp only
      by_cases hpp : (σ.bereaved p p).ppid = -1
      · simp [hpp]
      · rw [if_neg hpp]
        by_cases hrc : (insertDeadList { σ with family := σ.bereaved p }
            (σ.bereaved p p).ppid p status).1 = 0
        · rw [if_neg (not_or.2 ⟨hpp, not_not.2 hrc⟩), if_neg (not_not.2 hrc), Option.isSome_map,
            List.forall_mem_singleton]
          change _ ↔ (σ.getPcb (σ.bereaved p p).ppid).isSome = true
          rcases σ.getPcb_or (σ.bereaved p p).ppid with hc | hc <;> simp [hc]
        · simp [hrc]

theorem exitReads_enter (u : UserContext) (status : Word) :
    ((σ.begin l).enter u).exitReads p status = (σ.begin l).exitReads p status := by
  unfold exitReads
  congr 1
  refine if_congr (or_congr Iff.rfl ?_) rfl rfl
  rw [Ne, Ne, insertDeadList_fst, insertDeadList_fst]
  rfl

/-- A step with an exiting process runs `sys_Exit` for it. -/
theorem step_of_exiting {status : Word} (h : σ.exiting l = some (p, status)) :
    ∃ u, l.event = .trap u ∧
      σ.step l = (((σ.begin l).enter u).sysExit p status).map finish := by
  unfold exiting at h
  split at h
  swap
  · exact absurd h (by simp)
  rename_i u hl
  split at h
  swap
  · exact absurd h (by simp)
  rename_i hu
  obtain ⟨q, hq, h⟩ := Option.bind_eq_some_iff.1 h
  refine ⟨u, hl, ?_⟩
  have hstep : σ.step l = ((σ.begin l).enter u).handler u.vector := by
    unfold step
    rw [hl]
    dsimp only
    rw [if_pos hu]
  have hactive : ((σ.begin l).enter u).activeProc = some q := hq
  split at h
  · rename_i hcall
    obtain ⟨rfl, rfl⟩ := Prod.mk.inj (Option.some.inj h)
    have hv := Label.vector_of_call hcall
    rw [Label.vector, hl] at hv
    have hv := Option.some.inj hv
    rw [Label.call, hl] at hcall
    dsimp only at hcall
    rw [if_pos hv] at hcall
    rw [hstep, hv]
    unfold handler
    rw [hactive, Option.bind_some, trapKernelHdl]
    change (Call.decode u.code).bind _ = _
    rw [hcall]
    rfl
  · split at h
    swap
    · exact absurd h (by simp)
    rename_i habort
    obtain ⟨rfl, rfl⟩ := Prod.mk.inj (Option.some.inj h)
    rw [hstep]
    generalize u.vector = v at habort
    rcases habort with rfl | rfl | ⟨h₈, h₁₆⟩ | ⟨rfl, hfit⟩
    · rw [handler, hactive]
      rfl
    · rw [handler, hactive]
      rfl
    · have hhandler : ((σ.begin l).enter u).handler v =
          ((σ.begin l).enter u).activeProc.bind fun p => ((σ.begin l).enter u).trapAbortHdl p := by
        interval_cases v <;> rfl
      rw [hhandler, hactive]
      rfl
    · rw [handler, hactive, Option.bind_some, trapMemoryHdl, if_neg hfit]
      rfl

/-! ## The links of the processes -/

/-- Fork uses up a pid if and only if the PCB can be allocated, and then it links the
child with `p`. -/
theorem sysFork_family (h : σ.sysFork p = some (o, σ')) :
    σ.malloc.1.ok = false ∧ σ'.nextPid = σ.nextPid ∧ σ'.family = σ.family ∨
      σ.malloc.1.ok = true ∧ σ.nextPid < maxProc ∧ σ'.nextPid = σ.nextPid + 1 ∧
        ∃ cs, cs ⊆ (σ.family p).children ++ [σ.nextPid] ∧ σ'.family =
          Function.update (Function.update σ.family σ.nextPid { ppid := p, children := [] }) p
            { σ.family p with children := cs } := by
  have hchild : (listInsert (σ.family p).children ((σ.family p).children.length + 1) σ.nextPid
      σ.malloc.2.mem).2.1 ⊆ (σ.family p).children ++ [σ.nextPid] := by
    rw [listInsert_last]
    split
    · exact List.Subset.refl _
    · exact List.subset_append_left _ _
  unfold sysFork at h
  dsimp only at h
  split at h
  swap
  · rename_i hblock
    obtain ⟨-, rfl⟩ := Prod.mk.inj (Option.some.inj h)
    exact .inl ⟨by simpa using hblock, rfl, rfl⟩
  rename_i hblock
  split at h
  · exact absurd h (by simp)
  rename_i hroom
  refine .inr ⟨hblock, not_le.1 hroom, ?_⟩
  split at h
  · obtain ⟨τ, hτ, h⟩ := Option.map_eq_some_iff.1 h
    obtain ⟨r, -, rfl⟩ := Option.map_eq_some_iff.1 hτ
    split at h
    · obtain ⟨-, rfl⟩ := Prod.mk.inj h
      exact ⟨rfl, _, hchild, rfl⟩
    · obtain ⟨-, rfl⟩ := Prod.mk.inj h
      exact ⟨rfl, _, hchild, rfl⟩
  · obtain ⟨-, rfl⟩ := Prod.mk.inj (Option.some.inj h)
    exact ⟨rfl, _, hchild, rfl⟩

/-- Exit cuts links and makes none. -/
theorem sysExit_family {status : Word} (h : σ.sysExit p status = some (o, σ')) (q : Pid) :
    (σ'.family q).children ⊆ (σ.family q).children ∧
      ((σ'.family q).ppid = -1 ∨ (σ'.family q).ppid = (σ.family q).ppid) := by
  unfold sysExit at h
  obtain ⟨family, horphan, h⟩ := Option.bind_eq_some_iff.1 h
  obtain ⟨⟨rc, τ⟩, hτ, h⟩ := Option.bind_eq_some_iff.1 h
  have hcut : (family q).children = (σ.family q).children ∧
      ((family q).ppid = -1 ∨ (family q).ppid = (σ.family q).ppid) := by
    rw [orphan_eq horphan q]
    split
    · exact ⟨rfl, .inl rfl⟩
    · exact ⟨rfl, .inr rfl⟩
  have htell : (τ.family q).children ⊆ (family q).children ∧
      (τ.family q).ppid = (family q).ppid := by
    have hdead : (insertDeadList { σ with family := family } (family p).ppid p status).2.family =
        family := by
      unfold insertDeadList
      dsimp only
      split <;> rfl
    unfold tellParent at hτ
    dsimp only at hτ
    split at hτ
    · obtain ⟨-, rfl⟩ := Prod.mk.inj (Option.some.inj hτ)
      exact ⟨List.Subset.refl _, rfl⟩
    split at hτ
    · obtain ⟨-, rfl⟩ := Prod.mk.inj (Option.some.inj hτ)
      rw [hdead]
      exact ⟨List.Subset.refl _, rfl⟩
    · obtain ⟨p₁, -, hτ⟩ := Option.map_eq_some_iff.1 hτ
      obtain ⟨-, rfl⟩ := Prod.mk.inj hτ
      simp only [setFamily, hdead]
      by_cases hq : q = p₁
      · subst hq
        simp only [Function.update_self, and_true]
        exact List.erase_subset
      · rw [Function.update_of_ne hq]
        exact ⟨List.Subset.refl _, rfl⟩
  have hall : σ'.family q = τ.family q := by
    dsimp only at h
    split at h
    · exact congrFun (congrArg Kernel.family (Prod.mk.inj (Option.some.inj h)).2.symm) q
    · have ht := block_touches (v := [.queues, .contexts, .users]) (by simp)
        (fun _ _ _ _ h => .ret (.refl _ _) h) h
      have hwake : ((τ.freeSpace p).wakeParent (τ.family p).ppid).family = τ.family := by
        unfold wakeParent
        split <;> rfl
      rw [(ht.same .tree (by simp)).1]
      exact congrFun hwake q
  rw [hall, htell.2, ← hcut.1]
  exact ⟨htell.1, hcut.2⟩

/-- Wait reads the links and changes none. -/
theorem sysWait_family (h : σ.sysWait p = some (o, σ')) : σ'.family = σ.family := by
  have hscan : ∀ {σ : Kernel} {s : Word} {i : ℕ} {otherwise : Option (Outcome × Kernel)},
      (otherwise = some (o, σ') → σ'.family = σ.family) →
        σ.scanDead p s i otherwise = some (o, σ') → σ'.family = σ.family := by
    intro σ s i otherwise hother h
    unfold scanDead at h
    split at h
    · exact hother h
    split at h
    · obtain ⟨τ, hτ, h⟩ := Option.map_eq_some_iff.1 h
      obtain ⟨-, rfl⟩ := Prod.mk.inj h
      exact ((storeInt_touches hτ).same .tree (by simp)).1
    · exact absurd h (by simp)
  unfold sysWait at h
  dsimp only at h
  split at h
  · exact congrArg Kernel.family (Prod.mk.inj (Option.some.inj h)).2.symm
  obtain ⟨_, -, h⟩ := Option.bind_eq_some_iff.1 h
  split at h
  · exact congrArg Kernel.family (Prod.mk.inj (Option.some.inj h)).2.symm
  refine hscan (fun h => ?_) h
  obtain ⟨r, hr, h⟩ := Option.bind_eq_some_iff.1 h
  have hsched := ((normalSchedule_touches hr).same .tree (by simp)).1
  split at h
  · obtain ⟨-, rfl⟩ := Prod.mk.inj (Option.some.inj h)
    exact hsched
  split at h
  · obtain ⟨-, rfl⟩ := Prod.mk.inj (Option.some.inj h)
    exact hsched
  · refine (hscan (fun h => ?_) h).trans hsched
    exact congrArg Kernel.family (Prod.mk.inj (Option.some.inj h)).2.symm

/-- What a step does to the pids and the links: a Fork hands out a pid and links the child,
and otherwise links are cut or left. -/
inductive LinkStep (σ σ' : Kernel) (l : Label) : Prop
  | cut (none : ¬σ.CreatesPcb l) (nextPid : σ'.nextPid = σ.nextPid)
      (family : ∀ q, (σ'.family q).children ⊆ (σ.family q).children ∧
        ((σ'.family q).ppid = -1 ∨ (σ'.family q).ppid = (σ.family q).ppid))
  | link (p : Pid) (cs : List Pid) (creates : σ.CreatesPcb l) (active : σ.activeProc = some p)
      (room : σ.nextPid < maxProc) (nextPid : σ'.nextPid = σ.nextPid + 1)
      (children : cs ⊆ (σ.family p).children ++ [σ.nextPid])
      (family : σ'.family =
        Function.update (Function.update σ.family σ.nextPid { ppid := p, children := [] }) p
          { σ.family p with children := cs })

/-- A Fork that has its PCB creates one. -/
theorem creates_of_fork (h : Steps σ l σ') (hc : l.call = some .fork)
    (hok : (σ.begin l).malloc.1.ok = true) : σ.CreatesPcb l := by
  obtain ⟨u, p, o, τ, hl, hv, hp, hs, -, -⟩ := h.of_call hc
  refine ⟨?_, hc, by simp [hp], hok⟩
  cases h with
  | resume hl' => simp [hl] at hl'
  | _ => assumption

theorem link_step (h : Steps σ l σ') : LinkStep σ σ' l := by
  have hsame : (¬σ.CreatesPcb l) → σ'.nextPid = σ.nextPid → σ'.family = σ.family →
      LinkStep σ σ' l := fun hc hn hf =>
    .cut hc hn fun q => by
      rw [hf]
      exact ⟨List.Subset.refl _, .inr rfl⟩
  have hno : l.call ≠ some .fork → ¬σ.CreatesPcb l := fun hc hcreates => hc hcreates.2.1
  have htouch : ∀ {vs : List View}, l.call ≠ some .fork → Touches vs σ σ' → View.pids ∉ vs →
      View.tree ∉ vs → LinkStep σ σ' l := fun hc ht hp hv =>
    hsame (hno hc) (ht.same .pids hp).1 (ht.same .tree hv).1
  have hexit : ∀ {u : UserContext} {p : Pid} {o : Outcome} {τ : Kernel} {status : Word},
      l.call ≠ some .fork → ((σ.begin l).enter u).sysExit p status = some (o, τ) →
        σ' = finish (o, τ) → LinkStep σ σ' l := by
    intro u p o τ status hc hs hσ'
    have hfinish := (finish_touches o τ).same
    refine .cut (hno hc) ?_ fun q => ?_
    · rw [hσ', (hfinish .pids (by simp)).1]
      exact (sysExit_dead hs).1
    · rw [hσ', (hfinish .tree (by simp)).1]
      exact sysExit_family hs q
  have hvector : ∀ {u : UserContext}, l.event = .trap u → u.vector ≠ 0 →
      l.call ≠ some .fork := by
    intro u hl hv hc
    have h₀ := Label.vector_of_call hc
    rw [Label.vector, hl] at h₀
    exact hv (Option.some.inj h₀)
  cases h with
  | store hl hu h =>
      exact htouch (by simp [Label.call, hl]) ((begin_touches σ l).seq (copyOut_touches h))
        (by simp) (by simp)
  | @call u p c o τ hl hu hv hp hc h =>
      have hcall : l.call = some c := by simp [Label.call, hl, hv, hc]
      have hfinish := (finish_touches o τ).same
      cases c with
      | fork =>
          have hcreates : σ.CreatesPcb l ↔ ((σ.begin l).enter u).malloc.1.ok = true := by
            constructor
            · exact fun hc => hc.2.2.2
            · exact fun hok => ⟨hu, hcall, by simp [hp], hok⟩
          rcases sysFork_family h with ⟨hok, hn, hf⟩ | ⟨hok, hroom, hn, cs, hcs, hf⟩
          · refine hsame (by simp [hcreates, hok]) ?_ ?_
            · exact (hfinish .pids (by simp)).1.trans hn
            · exact (hfinish .tree (by simp)).1.trans hf
          · refine .link p cs (hcreates.2 hok) hp hroom ?_ hcs ?_
            · exact (hfinish .pids (by simp)).1.trans hn
            · exact (hfinish .tree (by simp)).1.trans hf
      | exit => exact hexit (by simp [hcall]) h rfl
      | wait =>
          have hpids := ((sysWait_touches h).same .pids (by simp)).1
          refine hsame (hno (by simp [hcall])) ?_ ?_
          · exact (hfinish .pids (by simp)).1.trans hpids
          · exact (hfinish .tree (by simp)).1.trans
              (sysWait_family (σ := (σ.begin l).enter u) (p := p) h)
      | _ =>
          exact htouch (by simp [hcall]) (call_touches (enter_touches σ l u) (sysCall_touches h) o)
            (by simp [callViews]) (by simp [callViews])
  | @clock u τ hl hu hv h =>
      exact htouch (hvector hl (by simp [hv])) ((enter_touches σ l u).seq (trapClockHdl_touches h))
        (by simp) (by simp)
  | @abort u p o τ hl hu hv hp h =>
      exact hexit (hvector hl fun h₀ => hv (by simp [h₀])) h rfl
  | @grow u p τ hl hu hv hp hfit h =>
      exact htouch (hvector hl (by simp [hv])) ((enter_touches σ l u).seq
        ((growUserStack_touches h).seq (returnUser_touches τ))) (by simp) (by simp)
  | @receive u τ hl hu hv h =>
      exact htouch (hvector hl (by simp [hv])) ((enter_touches σ l u).seq
        ((trapTtyReceiveHdl_touches h).seq (returnUser_touches τ))) (by simp) (by simp)
  | @transmit u τ hl hu hv h =>
      exact htouch (hvector hl (by simp [hv])) ((enter_touches σ l u).seq
        ((trapTtyTransmitHdl_touches h).seq (returnUser_touches τ))) (by simp) (by simp)
  | @disk u hl hu hv =>
      exact htouch (hvector hl (by simp [hv])) ((enter_touches σ l u).trans
        ((returnUser_touches ((σ.begin l).enter u)).mono (by simp))) (by simp) (by simp)
  | @resume p o τ hl hu hp h =>
      have hcall : l.call ≠ some .fork := by simp [Label.call, hl]
      cases hk : (σ.pcb p).kctxt with
      | wait s i =>
          rw [hk] at h
          have hfinish := (finish_touches o τ).same
          have hpids := ((sysWaitResume_touches h).same .pids (by simp)).1
          refine hsame (hno hcall) ((hfinish .pids (by simp)).1.trans hpids) ?_
          refine (hfinish .tree (by simp)).1.trans ?_
          rcases sysWaitResume_cases h with ⟨k, d, -, hreap⟩ | ⟨-, -, rfl⟩
          · obtain ⟨τ', hτ', rfl⟩ := hreap.stored
            exact ((storeInt_touches hτ').same .tree (by simp)).1
          · rfl
      | _ =>
          rw [hk] at h
          exact htouch hcall (call_touches (restore_touches σ l p) (resumeCall_touches h) o)
            (by simp [resumeViews]) (by simp [resumeViews])

/-- A step of another process keeps the pid of `q`, and its life. -/
theorem live_step {q : Pid} (hs : Steps σ l σ') (hq : q ∈ σ.live) (ha : σ.activeProc ≠ some q) :
    q ∈ σ'.live ∧ σ.nextPid ≤ σ'.nextPid := by
  cases dead_step hs with
  | same _ pids => exact ⟨pids.2 ▸ hq, pids.1.ge⟩
  | fork _ nextPid live =>
      rw [live, nextPid]
      exact ⟨List.mem_append_left _ hq, by omega⟩
  | exit r ppid status _ hr pids =>
      have hne : q ≠ r := by
        rintro rfl
        exact ha hr
      exact ⟨pids.2 ▸ (List.mem_erase_of_ne hne).2 hq, pids.1.ge⟩
  | reap _ _ _ _ _ _ _ _ _ pids => exact ⟨pids.2 ▸ hq, pids.1.ge⟩

/-! ## The invariant -/

/-- The pid `q` has been handed out. -/
def Named (σ : Kernel) (q : Pid) : Prop := 0 ≤ q ∧ q < σ.nextPid

instance (σ : Kernel) (q : Pid) : Decidable (σ.Named q) := inferInstanceAs (Decidable (_ ∧ _))

/-- What the walk of an Exit reads behind the children are pids that have been handed out. -/
def StraysNamed (σ : Kernel) (l : Label) : Prop :=
  ∀ x ∈ σ.exiting l, (σ.family x.1).children ≠ [] → ∀ i ∈ l.world.strays, σ.Named i

instance (σ : Kernel) (l : Label) : Decidable (σ.StraysNamed l) :=
  inferInstanceAs (Decidable (∀ x ∈ σ.exiting l, (σ.family x.1).children ≠ [] →
    ∀ i ∈ l.world.strays, σ.Named i))

/-- Only pids that have been handed out are in use, and each of them has been the index of one
write to the table. -/
structure Numbered (tr : List (Move Kernel Label)) (σ : Kernel) : Prop where
  first : 2 ≤ σ.nextPid
  last : σ.nextPid ≤ maxProc
  known : Known σ.Named σ
  children : ∀ p, ∀ c ∈ (σ.family p).children, σ.Named c
  parent : ∀ p, (σ.family p).ppid = -1 ∨ σ.Named (σ.family p).ppid
  entries : ∀ i, (pcbEntries tr).count i = if σ.Named i then 1 else 0

theorem pcbEntries_snoc (tr : List (Move Kernel Label)) (σ : Kernel) (l : Label) (σ' : Kernel) :
    pcbEntries (tr ++ [⟨σ, l, σ'⟩]) = pcbEntries tr ++ σ.pcbWrites l := by
  simp [pcbEntries]

namespace Numbered

variable {tr : List (Move Kernel Label)}

theorem boot (hb : Booted σ) : Numbered [] σ where
  first := hb.nextPid.ge
  last := by
    rw [hb.nextPid]
    decide
  known := by
    constructor
    · intro p hp
      obtain rfl := Option.some.inj (hb.active.symm.trans hp)
      exact ⟨le_rfl, by rw [hb.nextPid]; decide⟩
    · intro q hq
      rw [hb.queued, List.count_pos_iff] at hq
      have hidle : q = idle := by
        rcases hb.ready with hr | hr
        · rw [hr] at hq
          exact absurd hq (by simp)
        · rw [hr] at hq
          exact List.mem_singleton.1 hq
      subst hidle
      exact .inr ⟨by decide, by rw [hb.nextPid]; decide⟩
  children p c hc := by
    rw [hb.family] at hc
    exact absurd hc (by simp)
  parent p := by
    rw [hb.family]
    exact .inl rfl
  entries i := by
    have hcount : (pcbEntries []).count i = if i = 0 ∨ i = 1 then 1 else 0 := by
      change [(0 : Int), 1].count i = _
      by_cases h₀ : i = 0
      · subst h₀
        rfl
      · by_cases h₁ : i = 1
        · subst h₁
          rfl
        · simp [h₀, h₁, Ne.symm h₀, Ne.symm h₁]
    have hiff : i = 0 ∨ i = 1 ↔ σ.Named i := by
      unfold Named Pid at *
      rw [hb.nextPid]
      omega
    rw [hcount, if_congr hiff rfl rfl]

theorem step (h : Numbered tr σ) (hs : Steps σ l σ') :
    Numbered (tr ++ [⟨σ, l, σ'⟩]) σ' := by
  cases link_step hs with
  | cut none nextPid family =>
      have hnamed : σ'.Named = σ.Named := by
        funext q
        rw [Named, Named, nextPid]
      have hknown : Known σ.Named σ' := by
        refine hs.known h.known fun hc hok => absurd ?_ none
        exact creates_of_fork hs hc hok
      refine ⟨nextPid ▸ h.first, nextPid ▸ h.last, hnamed ▸ hknown, fun p c hc => ?_, fun p => ?_,
        fun i => ?_⟩
      · rw [hnamed]
        exact h.children p c ((family p).1 hc)
      · rw [hnamed]
        rcases (family p).2 with he | he
        · exact .inl he
        · rw [he]
          exact h.parent p
      · rw [pcbEntries_snoc, pcbWrites, if_neg none, List.append_nil, h.entries i]
        exact if_congr (by rw [hnamed]) rfl rfl
  | link p cs creates active room nextPid children family =>
      have hmono : ∀ q, σ.Named q → σ'.Named q := by
        rintro q ⟨h₀, hq⟩
        exact ⟨h₀, by rw [nextPid]; exact hq.trans (Int.lt_succ σ.nextPid)⟩
      have hnew : σ'.Named σ.nextPid := by
        refine ⟨(by decide : (0 : Int) ≤ 2).trans h.first, ?_⟩
        rw [nextPid]
        exact Int.lt_succ σ.nextPid
      have hp : σ'.Named p := hmono p (h.known.active p active)
      have hcs : ∀ c ∈ cs, σ'.Named c := by
        intro c hc
        rcases List.mem_append.1 (children hc) with hc | hc
        · exact hmono c (h.children p c hc)
        · exact List.mem_singleton.1 hc ▸ hnew
      refine ⟨?_, ?_, hs.known (h.known.mono hmono) fun _ _ => hnew, fun q c hc => ?_, fun q => ?_,
        fun i => ?_⟩
      · rw [nextPid]
        exact h.first.trans (Int.lt_succ σ.nextPid).le
      · rw [nextPid]
        exact Int.add_one_le_iff.2 room
      · rw [family] at hc
        by_cases hqp : q = p
        · subst hqp
          rw [Function.update_self] at hc
          exact hcs c hc
        · rw [Function.update_of_ne hqp] at hc
          by_cases hqn : q = σ.nextPid
          · subst hqn
            rw [Function.update_self] at hc
            exact absurd hc (by simp)
          · rw [Function.update_of_ne hqn] at hc
            exact hmono c (h.children q c hc)
      · have hold : ∀ q, (σ.family q).ppid = -1 ∨ σ'.Named (σ.family q).ppid := fun q =>
          (h.parent q).imp_right (hmono _)
        rw [family]
        by_cases hqp : q = p
        · subst hqp
          rw [Function.update_self]
          exact hold q
        · rw [Function.update_of_ne hqp]
          by_cases hqn : q = σ.nextPid
          · subst hqn
            rw [Function.update_self]
            exact .inr hp
          · rw [Function.update_of_ne hqn]
            exact hold q
      · -- the new entry is the one that no write has had before
        have hcount : (pcbEntries tr ++ [σ.nextPid]).count i =
            (if σ.Named i then 1 else 0) + if i = σ.nextPid then 1 else 0 := by
          rw [List.count_append, h.entries i]
          by_cases hi : i = σ.nextPid
          · subst hi
            simp
          · simp [hi, Ne.symm hi]
        have hnamed : σ'.Named i ↔ σ.Named i ∨ i = σ.nextPid := by
          have hfirst := h.first
          unfold Named Pid at *
          omega
        have hnot : i = σ.nextPid → ¬σ.Named i := by
          rintro rfl hn
          exact lt_irrefl _ hn.2
        rw [pcbEntries_snoc, pcbWrites, if_pos creates, hcount]
        by_cases hi : i = σ.nextPid
        · rw [if_neg (hnot hi), if_pos hi, if_pos (hnamed.2 (.inr hi))]
        · rw [if_neg hi, add_zero]
          exact if_congr (hnamed.trans (or_iff_left hi)).symm rfl rfl

theorem of_run {b : Boot} {σ₀ : Kernel} (h₀ : kernelStart b = some σ₀)
    (h : Run Kernel.step (fun _ _ _ => True) σ₀ tr σ) : Numbered tr σ := by
  refine h.history (I := Numbered) (boot (kernelStart_booted h₀)) ?_
  intro tr σ l σ' hn hs _
  exact hn.step (step_cases hs)

/-- The indices that an Exit reads have been handed out if those behind the children have. -/
theorem reads_iff (h : Numbered tr σ) : (∀ i ∈ σ.pcbReads l, σ.Named i) ↔ σ.StraysNamed l := by
  unfold pcbReads StraysNamed
  cases hx : σ.exiting l with
  | none => simp
  | some x =>
      obtain ⟨p, status⟩ := x
      have hparent : ∀ i ∈ (if ((σ.begin l).bereaved p p).ppid = -1 ∨
          (insertDeadList { σ.begin l with family := (σ.begin l).bereaved p }
            ((σ.begin l).bereaved p p).ppid p status).1 ≠ 0
          then [] else [((σ.begin l).bereaved p p).ppid]), σ.Named i := by
        intro i hi
        split at hi
        · exact absurd hi (by simp)
        rename_i hne
        obtain rfl := List.mem_singleton.1 hi
        have hppid := (not_or.1 hne).1
        have hber : ((σ.begin l).bereaved p p).ppid = (σ.family p).ppid := by
          unfold bereaved at hppid ⊢
          split
          · rename_i hm
            rw [if_pos hm] at hppid
            exact absurd rfl hppid
          · rfl
        rw [hber] at hppid ⊢
        exact (h.parent p).resolve_left hppid
      rw [Option.elim_some, exitReads, List.forall_mem_append, and_iff_left hparent]
      change (∀ i ∈ (if (σ.family p).children = [] then [] else
        (σ.family p).children ++ l.world.strays), _) ↔ _
      split
      · simp [*]
      · rw [List.forall_mem_append, and_iff_right (h.children p)]
        simp [*]

end Numbered

variable {b : Boot} {σ₀ : Kernel} {tr : List (Move Kernel Label)}

/-- A Fork that has its PCB and a node for the parent's list, and no head for the child's. -/
def forkHeadless : Label :=
  { smallCall .fork 0 0 0 with mallocs := [default, default, { ok := false }] }

/-- Such a Fork uses up a pid, and the caller goes on. -/
theorem step_forkHeadless (hu : σ.userMode = true) (hp : σ.activeProc = some p)
    (hroom : σ.nextPid < maxProc) : ∃ σ', σ.step forkHeadless = some σ' ∧ σ'.userMode = true ∧
      σ'.activeProc = some p ∧ σ'.nextPid = σ.nextPid + 1 := by
  obtain ⟨u, hl, hv, hc⟩ : ∃ u, forkHeadless.event = .trap u ∧ u.vector = 0 ∧
      Call.decode u.code = some .fork := ⟨_, rfl, rfl, by decide⟩
  have hblock : ((σ.begin forkHeadless).enter u).mem.malloc.1.ok = true := by
    rw [Mem.malloc_fst]
    rfl
  have hhead : ((σ.begin forkHeadless).enter u).forkHead = false := by
    change ((σ.begin forkHeadless).enter u).mem.mallocOk 2 = false
    rw [Mem.mallocOk_eq]
    rfl
  have hfork := sysFork_noHead (p := p) hblock hroom hhead
  have hactive : ((σ.begin forkHeadless).enter u).activeProc = some p := hp
  have hstep : σ.step forkHeadless =
      (((σ.begin forkHeadless).enter u).sysFork p).map finish := by
    unfold step
    rw [hl]
    dsimp only
    rw [if_pos hu, hv, handler, hactive, Option.bind_some, trapKernelHdl]
    change (Call.decode u.code).bind _ = _
    rw [hc]
    rfl
  rw [hfork] at hstep
  exact ⟨_, hstep, rfl, hp, rfl⟩

/-- A process that only forks in this way gets `next_pid` to any value that the table has
room for. -/
theorem run_forkHeadless (hb : Booted σ₀) (n : ℕ) (hn : (2 : Int) + n ≤ maxProc) :
    ∃ tr σ, Run Kernel.step (fun _ l _ => l.SparesKernel) σ₀ tr σ ∧ σ.userMode = true ∧
      σ.activeProc = some 0 ∧ σ.nextPid = 2 + n := by
  induction n with
  | zero => exact ⟨[], σ₀, .start, hb.userMode, hb.active, hb.nextPid⟩
  | succ n ih =>
      obtain ⟨tr, σ, hr, hu, hp, hnext⟩ := ih (by push_cast at hn; omega)
      have hroom : σ.nextPid < maxProc := by
        rw [hnext]
        push_cast at hn
        omega
      obtain ⟨σ', hs, hu', hp', hnext'⟩ := step_forkHeadless hu hp hroom
      refine ⟨_, σ', hr.snoc hs (by decide), hu', hp', ?_⟩
      rw [hnext', hnext]
      push_cast
      exact add_assoc 2 (n : Int) 1

/-- The end of the table is reached: init can fork until `next_pid` is `MAX_PROC`, and the Fork
after that writes behind the table. -/
theorem run_table_full (h₀ : kernelStart b = some σ₀) : ∃ tr σ,
    Run Kernel.step (fun _ l _ => l.SparesKernel) σ₀ tr σ ∧ σ.CreatesPcb (smallCall .fork 0 0 0) ∧
      maxProc ≤ σ.nextPid := by
  obtain ⟨tr, σ, hr, hu, hp, hnext⟩ := run_forkHeadless (kernelStart_booted h₀) 998 (by decide)
  refine ⟨tr, σ, hr, ⟨hu, by decide, by simp [hp], ?_⟩, ?_⟩
  · change (σ.begin (smallCall .fork 0 0 0)).mem.malloc.1.ok = true
    rw [Mem.malloc_fst]
    rfl
  · rw [hnext]
    decide

/-! ## All runs -/

/-- The next step uses the table well unless it is a Fork that gets its PCB when `MAX_PROC` pids
have been handed out, or an Exit that reads another number behind the children. -/
theorem Numbered.tableSafe_iff (h : Numbered tr σ) (l : Label) :
    TableSafe tr σ l ↔ ¬(σ.CreatesPcb l ∧ maxProc ≤ σ.nextPid) ∧ σ.StraysNamed l := by
  rw [← h.reads_iff]
  constructor
  · intro hsafe
    constructor
    · rintro ⟨hcreates, hfull⟩
      have hwrite : σ.nextPid ∈ σ.pcbWrites l ++ σ.pcbReads l := by
        rw [pcbWrites, if_pos hcreates]
        exact List.mem_append_left _ (List.mem_singleton_self _)
      exact absurd (hsafe.inside _ hwrite).2 (not_lt.2 hfull)
    · intro i hi
      obtain ⟨h₀, -, hlt⟩ := getPcb_eq_some.1 (hsafe.found i hi).1
      exact ⟨h₀, hlt⟩
  · rintro ⟨hroom, hreads⟩
    have hin : ∀ i, σ.Named i → 0 ≤ i ∧ i < maxProc := fun i hi =>
      ⟨hi.1, hi.2.trans_le h.last⟩
    constructor
    · intro i hi
      rcases List.mem_append.1 hi with hw | hr
      · unfold pcbWrites at hw
        split at hw
        · rename_i hcreates
          obtain rfl := List.mem_singleton.1 hw
          refine ⟨(by decide : (0 : Int) ≤ 2).trans h.first, ?_⟩
          exact not_le.1 fun hfull => hroom ⟨hcreates, hfull⟩
        · exact absurd hw (by simp)
      · exact hin i (hreads i hr)
    · intro i hi
      have hnamed := hreads i hi
      obtain ⟨h₀, hlt⟩ := hin i hnamed
      refine ⟨getPcb_eq_some.2 ⟨h₀, hlt, hnamed.2⟩, ?_⟩
      rw [h.entries i, if_pos hnamed]

/-- An Exit that reads a number behind the children which no process has goes through `NULL`. -/
theorem Numbered.exit_none (h : Numbered tr σ) {status : Word}
    (hx : σ.exiting l = some (p, status)) (hstray : ¬σ.StraysNamed l) : σ.step l = none := by
  obtain ⟨u, -, hstep⟩ := step_of_exiting hx
  have hlookup : ¬∀ i ∈ ((σ.begin l).enter u).exitReads p status,
      ((σ.begin l).enter u).getPcb i = some i := by
    intro hfound
    refine hstray (h.reads_iff.1 fun i hi => ?_)
    rw [pcbReads, hx] at hi
    obtain ⟨h₀, -, hlt⟩ := getPcb_eq_some.1 (hfound i (by rwa [exitReads_enter]))
    exact ⟨h₀, hlt⟩
  have hnone := Option.not_isSome_iff_eq_none.1 (mt exitReads_found_iff.2 hlookup)
  have hexit : ((σ.begin l).enter u).sysExit p status = none := by
    unfold sysExit
    rw [← Option.bind_assoc, hnone]
    rfl
  rw [hstep, hexit]
  rfl

end Kernel

end Yalnix
