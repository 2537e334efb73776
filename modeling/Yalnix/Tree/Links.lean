import Yalnix.Tree.Wait

/-!
# The process tree

`TreeStep` lists what a step in which allocations succeed can do to the process
tree: a Fork adds a child, an Exit takes a process out, and a Wait blocks or reaps
a record. The invariant `Tree` says that the two copies of each parent link agree
and that a process in `wait_list` has a child to wait for.
-/

namespace Yalnix

open Transition

namespace Kernel

/-! ## Steps of the tree -/

/-- What a step can do to the process tree. -/
inductive TreeStep (σ σ' : Kernel) (l : Label) : Prop
  | same (pids : σ'.nextPid = σ.nextPid ∧ σ'.live = σ.live)
      (tree : σ'.family = σ.family ∧ σ'.deadList = σ.deadList ∧ σ'.waitList = σ.waitList)
  | fork (p : Pid) (active : σ.activeProc = some p) (nextPid : σ'.nextPid = σ.nextPid + 1)
      (live : σ'.live = σ.live ++ [σ.nextPid])
      (family : σ'.family =
        Function.update (Function.update σ.family σ.nextPid { ppid := p, children := [] }) p
          { σ.family p with children := (σ.family p).children ++ [σ.nextPid] })
      (deadList : σ'.deadList = σ.deadList) (waitList : σ'.waitList = σ.waitList)
  | exit (p : Pid) (status : Word) (active : σ.activeProc = some p)
      (pids : σ'.nextPid = σ.nextPid ∧ σ'.live = σ.live.erase p)
      (family : σ'.family = mourned ((σ.begin l).bereaved p) p)
      (deadList : σ'.deadList = σ.deadList ++ if ((σ.begin l).bereaved p p).ppid = -1 then []
        else [some ⟨((σ.begin l).bereaved p p).ppid, p, status⟩])
      (waitList : σ'.waitList = σ.waitList.erase ((σ.begin l).bereaved p p).ppid)
      (exits : σ.exiting l = some (p, status))
  | sleep (p : Pid) (active : σ.activeProc = some p) (call : l.call = some .wait)
      (pids : σ'.nextPid = σ.nextPid ∧ σ'.live = σ.live) (family : σ'.family = σ.family)
      (deadList : σ'.deadList = σ.deadList) (waitList : σ'.waitList = σ.waitList ++ [p])
      (child : (σ.family p).children ≠ []) (none : ∀ d, some d ∈ σ.deadList → d.ppid ≠ p)
  | reap (p : Pid) (k i : ℕ) (active : σ.activeProc = some p)
      (pids : σ'.nextPid = σ.nextPid ∧ σ'.live = σ.live) (family : σ'.family = σ.family)
      (deadList : σ'.deadList = freeDead σ.deadList k i) (waitList : σ'.waitList = σ.waitList)

variable {σ σ' : Kernel} {l : Label}

/-- A process that does not run does not exit. -/
theorem TreeStep.live_of {q : Pid} (h : TreeStep σ σ' l) (hq : q ∈ σ.live)
    (hact : σ.activeProc ≠ some q) : q ∈ σ'.live := by
  cases h with
  | same pids tree => exact pids.2 ▸ hq
  | fork p active nextPid live => exact live ▸ List.mem_append_left _ hq
  | exit p status active pids =>
      have hne : q ≠ p := by
        rintro rfl
        exact hact active
      rw [pids.2]
      exact (List.mem_erase_of_ne hne).2 hq
  | sleep p active call pids => exact pids.2 ▸ hq
  | reap p k i active pids => exact pids.2 ▸ hq

theorem userMode_of_exiting {x : Pid × Word} (h : σ.exiting l = some x) : σ.userMode = true := by
  unfold exiting at h
  split at h
  · split at h
    · assumption
    · exact absurd h (by simp)
  · exact absurd h (by simp)

/-- A step of the tree that is made in the kernel, as it is seen from the states before and
after a call. -/
theorem TreeStep.around {vs ws : List View} {σ₁ τ : Kernel} (hb : Touches vs σ σ₁)
    (hmode : σ₁.userMode = false) (h : TreeStep σ₁ τ l) (ha : Touches ws τ σ')
    (hvs : View.queues ∉ vs ∧ View.pids ∉ vs ∧ View.tree ∉ vs)
    (hws : View.pids ∉ ws ∧ View.tree ∉ ws) : TreeStep σ σ' l := by
  obtain ⟨hactive, -⟩ := hb.same .queues hvs.1
  obtain ⟨hn, hl⟩ := hb.same .pids hvs.2.1
  obtain ⟨hn', hl'⟩ := ha.same .pids hws.1
  obtain ⟨hf, hd, hw⟩ := hb.same .tree hvs.2.2
  obtain ⟨hf', hd', hw'⟩ := ha.same .tree hws.2
  cases h with
  | same pids tree =>
      exact .same ⟨hn'.trans (pids.1.trans hn), hl'.trans (pids.2.trans hl)⟩
        ⟨hf'.trans (tree.1.trans hf), hd'.trans (tree.2.1.trans hd), hw'.trans (tree.2.2.trans hw)⟩
  | fork p active nextPid live family deadList waitList =>
      exact .fork p (hactive ▸ active) (by rw [hn', nextPid, hn]) (by rw [hl', live, hl, hn])
        (by rw [hf', family, hf, hn]) (hd'.trans (deadList.trans hd))
        (hw'.trans (waitList.trans hw))
  | exit p status active pids family deadList waitList exits =>
      exact absurd (hmode.symm.trans (userMode_of_exiting exits)) (by simp)
  | sleep p active call pids family deadList waitList child none =>
      exact .sleep p (hactive ▸ active) call
        ⟨hn'.trans (pids.1.trans hn), hl'.trans (pids.2.trans hl)⟩ (hf'.trans (family.trans hf))
        (hd'.trans (deadList.trans hd)) (by rw [hw', waitList, hw]) (hf ▸ child) (hd ▸ none)
  | reap p k i active pids family deadList waitList =>
      exact .reap p k i (hactive ▸ active)
        ⟨hn'.trans (pids.1.trans hn), hl'.trans (pids.2.trans hl)⟩ (hf'.trans (family.trans hf))
        (by rw [hd', deadList, hd]) (hw'.trans (waitList.trans hw))

theorem TreeStep.of_touches {vs : List View} (h : Touches vs σ σ') (hp : View.pids ∉ vs)
    (ht : View.tree ∉ vs) : TreeStep σ σ' l := .same (h.same .pids hp) (h.same .tree ht)

/-- A step in which allocations succeed does one of these things to the tree. -/
theorem tree_step (hinv : σ.Placed) (h : Steps σ l σ') (ha : σ.Allocates l σ')
    (hi : σ.IdlePauses l) : TreeStep σ σ' l := by
  have hexit : ∀ {u : UserContext} {p : Pid} {o : Outcome} {τ : Kernel} {status : Word},
      σ.activeProc = some p → σ.exiting l = some (p, status) →
      ((σ.begin l).enter u).sysExit p status = some (o, τ) → TreeStep σ (finish (o, τ)) l := by
    intro u p o τ status hp hx hs
    obtain ⟨τ', he, hblock⟩ := sysExit_ok (σ := (σ.begin l).enter u) ha.begin hs
    have ht := (block_touches (v := [.queues, .contexts, .users]) (by simp)
      (fun _ _ _ _ h => .ret (.refl _ _) h) hblock).seq (finish_touches o τ)
    obtain ⟨hn, hl⟩ := ht.same .pids (by simp)
    obtain ⟨hf, hd, hw⟩ := ht.same .tree (by simp)
    exact .exit p status hp ⟨hn.trans he.nextPid, hl.trans he.live⟩ (hf.trans he.family)
      (hd.trans he.deadList) (hw.trans he.waitList) hx
  cases h with
  | store hl hu h =>
      exact .of_touches ((begin_touches σ l).seq (copyOut_touches h))
        (by simp) (by simp)
  | @call u p c o τ hl hu hv hp hc h =>
      have hcall : l.call = some c := by simp [Label.call, hl, hv, hc]
      have hstep : TreeStep ((σ.begin l).enter u) τ l → TreeStep σ (finish (o, τ)) l :=
        fun hs => .around (enter_touches σ l u) rfl hs (finish_touches o τ) (by simp) (by simp)
      cases c with
      | fork =>
          obtain ⟨-, hf⟩ := sysFork_ok (σ := (σ.begin l).enter u) ha.begin h (by
            have hle := ha.2
            cases o <;> exact hle)
          exact hstep (.fork p hp hf.nextPid hf.live hf.family hf.deadList hf.waitList)
      | exit => exact hexit hp (exiting_call hl hu hp hcall) h
      | wait =>
          refine hstep ?_
          have hne : p ≠ idle := hi.ne hl hp (by simp [hv])
          have hready : idle ∈ σ.readyQueue :=
            hinv.idleReady.resolve_left fun hn => hne (Option.some.inj (hp.symm.trans hn))
          have hpids := sysCall_pids (by simp) (by simp) h
          have hcalling : ((σ.begin l).enter u).Calling p := ⟨hp, hready, ha.begin⟩
          rcases sysWait_cases hcalling h with
            ⟨-, rfl, -⟩ | ⟨-, hchild, ⟨k, d, -, hreap⟩ | ⟨hnone, -, hf, hd, hw⟩⟩
          · exact .same ⟨rfl, rfl⟩ ⟨rfl, rfl, rfl⟩
          · obtain ⟨τ', hτ', rfl⟩ := hreap.stored
            obtain ⟨hf, -, hw⟩ := (storeInt_touches hτ').same .tree (by simp)
            exact .reap p k _ hp hpids hf rfl hw
          · exact .sleep p hp hcall hpids hf hd hw hchild hnone
      | _ =>
          exact hstep
            (.of_touches (sysCall_touches h) (by simp [callViews]) (by simp [callViews]))
  | @clock u τ hl hu hv h =>
      exact .around (enter_touches σ l u) rfl
        (.of_touches (trapClockHdl_touches h) (by simp) (by simp)) (.refl [] _) (by simp) (by simp)
  | abort hl hu hv hp h hx =>
      exact hexit hp (exiting_abort hl hu hp (fun h₀ => hv (by simp [h₀])) hx) h
  | @grow u p τ hl hu hv hp hfit h =>
      exact .of_touches ((enter_touches σ l u).seq
        ((growUserStack_touches h).seq (returnUser_touches τ)))
        (by simp) (by simp)
  | @receive u τ hl hu hv h =>
      exact .around (enter_touches σ l u) rfl
        (.of_touches (trapTtyReceiveHdl_touches h) (by simp) (by simp)) (returnUser_touches τ)
        (by simp) (by simp)
  | @transmit u τ hl hu hv h =>
      exact .around (enter_touches σ l u) rfl
        (.of_touches (trapTtyTransmitHdl_touches h) (by simp) (by simp)) (returnUser_touches τ)
        (by simp) (by simp)
  | @disk u hl hu hv =>
      exact .of_touches ((enter_touches σ l u).trans
        ((returnUser_touches ((σ.begin l).enter u)).mono (by simp))) (by simp) (by simp)
  | @resume p o τ hl hu hp h =>
      refine .around (restore_touches σ l p) hu ?_ (finish_touches o τ) (by simp) (by simp)
      have hpids : View.pids ∉ resumeViews (σ.pcb p).kctxt := by
        cases (σ.pcb p).kctxt <;> simp [resumeViews]
      cases hk : (σ.pcb p).kctxt with
      | wait s i =>
          rw [hk] at h hpids
          rcases sysWaitResume_cases h with ⟨k, d, -, hreap⟩ | ⟨-, -, rfl⟩
          · obtain ⟨τ', hτ', rfl⟩ := hreap.stored
            obtain ⟨hf, -, hw⟩ := (storeInt_touches hτ').same .tree (by simp)
            exact .reap p k _ hp ((storeInt_touches hτ').same .pids (by simp)) hf rfl hw
          · exact .same ⟨rfl, rfl⟩ ⟨rfl, rfl, rfl⟩
      | _ =>
          exact .of_touches (resumeCall_touches h) hpids (by rw [hk]; simp [resumeViews])

/-! ## What Exit leaves of the links -/

theorem mourned_bereaved_ppid (σ : Kernel) (p q : Pid) : (mourned (σ.bereaved p) p q).ppid =
    if q ∈ σ.exitWalk p then -1 else (σ.family q).ppid := by
  rw [mourned_ppid, bereaved]
  split <;> rfl

theorem mourned_bereaved_children (σ : Kernel) (p q : Pid) :
    (mourned (σ.bereaved p) p q).children =
      if (σ.bereaved p p).ppid ≠ -1 ∧ q = (σ.bereaved p p).ppid then
        (σ.family q).children.erase p
      else (σ.family q).children := by
  have hber : ∀ r, (σ.bereaved p r).children = (σ.family r).children := by
    intro r
    rw [bereaved]
    split <;> rfl
  rw [mourned]
  by_cases hpp : (σ.bereaved p p).ppid = -1
  · simp [hpp, hber]
  · by_cases hq : q = (σ.bereaved p p).ppid
    · subst hq
      simp [hpp, hber]
    · simp [hpp, hq, hber]

/-- A live child is in the list of its live parent. An Exit keeps this whatever it reads behind
the children: it only cuts what the children know of their parents. -/
structure Linked (σ : Kernel) : Prop where
  child : ∀ p ∈ σ.live, ∀ q ∈ σ.live, (σ.family q).ppid = p → q ∈ (σ.family p).children
  bound : ∀ q ∈ σ.live, (σ.family q).ppid < σ.nextPid

theorem Linked.step (h : σ.Linked) (hinv : σ.Placed) (hs : TreeStep σ σ' l) : σ'.Linked := by
  have hsame : σ'.nextPid = σ.nextPid → σ'.live = σ.live → σ'.family = σ.family → σ'.Linked := by
    intro hn hl hf
    exact ⟨by rw [hl, hf]; exact h.child, by rw [hl, hf, hn]; exact h.bound⟩
  cases hs with
  | same pids tree => exact hsame pids.1 pids.2 tree.1
  | sleep p active call pids family => exact hsame pids.1 pids.2 family
  | reap p k i active pids family => exact hsame pids.1 pids.2 family
  | fork p active nextPid live family =>
      have hplive := hinv.live_of_active active
      have hpn : p ≠ σ.nextPid := (hinv.bound p hplive).2.ne
      have hold : ∀ q ∈ σ.live, (σ'.family q).ppid = (σ.family q).ppid := by
        intro q hq
        rw [family]
        by_cases hqp : q = p
        · subst hqp
          simp
        · rw [Function.update_of_ne hqp, Function.update_of_ne (hinv.bound q hq).2.ne]
      have hnew : (σ'.family σ.nextPid).ppid = p := by
        rw [family, Function.update_of_ne hpn.symm, Function.update_self]
      have hkept : ∀ r ∈ σ.live, (σ.family r).children ⊆ (σ'.family r).children := by
        intro r hr
        rw [family]
        by_cases hrp : r = p
        · subst hrp
          simp
        · rw [Function.update_of_ne hrp, Function.update_of_ne (hinv.bound r hr).2.ne]
          exact List.Subset.refl _
      have hlive : ∀ q, q ∈ σ'.live ↔ q ∈ σ.live ∨ q = σ.nextPid := by simp [live]
      constructor
      · intro r hr q hq hqr
        rcases (hlive q).1 hq with hq | rfl
        · rw [hold q hq] at hqr
          rcases (hlive r).1 hr with hr | rfl
          · exact hkept r hr (h.child r hr q hq hqr)
          · exact absurd hqr (h.bound q hq).ne
        · obtain rfl := hnew.symm.trans hqr
          simp [family]
      · intro q hq
        rw [nextPid]
        rcases (hlive q).1 hq with hq | rfl
        · rw [hold q hq]
          exact (h.bound q hq).trans (Int.lt_succ σ.nextPid)
        · rw [hnew]
          exact (hinv.bound p hplive).2.trans (Int.lt_succ σ.nextPid)
  | exit p status active pids family deadList waitList exits =>
      have hlive : ∀ q, q ∈ σ'.live ↔ q ≠ p ∧ q ∈ σ.live := fun q => by
        rw [pids.2, hinv.nodup.mem_erase_iff]
      have hppid : ∀ q, (σ'.family q).ppid = -1 ∨ (σ'.family q).ppid = (σ.family q).ppid := by
        intro q
        rw [family, mourned_bereaved_ppid]
        split
        · exact .inl rfl
        · exact .inr rfl
      constructor
      · intro r hr q hq hqr
        obtain ⟨hqp, hqlive⟩ := (hlive q).1 hq
        have hrlive := ((hlive r).1 hr).2
        have hold : (σ.family q).ppid = r := by
          rcases hppid q with he | he
          · have hnn := (hinv.bound r hrlive).1
            rw [← hqr, he] at hnn
            exact absurd hnn (by decide)
          · exact he.symm.trans hqr
        have hmem := h.child r hrlive q hqlive hold
        rw [family, mourned_bereaved_children]
        split
        · exact (List.mem_erase_of_ne hqp).2 hmem
        · exact hmem
      · intro q hq
        have hqlive := ((hlive q).1 hq).2
        rw [pids.1]
        rcases hppid q with he | he
        · rw [he]
          exact lt_of_lt_of_le (by decide) hinv.nextPid
        · rw [he]
          exact h.bound q hqlive

/-! ## The invariant -/

/-- An Exit of a process that has children meets `NULL` behind the last one. -/
def WalkEnds (σ : Kernel) (l : Label) : Prop :=
  ∀ x ∈ σ.exiting l, (σ.family x.1).children ≠ [] → l.world.strays = []

instance (σ : Kernel) (l : Label) : Decidable (σ.WalkEnds l) :=
  inferInstanceAs (Decidable (∀ x ∈ σ.exiting l, _ → _))

theorem WalkEnds.exitWalk (h : σ.WalkEnds l) {x : Pid × Word} (hx : σ.exiting l = some x) :
    (σ.begin l).exitWalk x.1 = (σ.family x.1).children := by
  change (if (σ.family x.1).children = [] then [] else
    (σ.family x.1).children ++ l.world.strays) = _
  split
  · exact (‹(σ.family x.1).children = []›).symm
  · rw [h x hx ‹_›, List.append_nil]

/-- The pid list of a parent agrees with the parents of the children, and a
process in `wait_list` has a child to wait for and no record to reap. -/
structure Tree (σ : Kernel) : Prop where
  children : ∀ p ∈ σ.live, ∀ q, (σ.family p).children.count q =
    if q ∈ σ.live ∧ (σ.family q).ppid = p then 1 else 0
  parent : ∀ q ∈ σ.live, (σ.family q).ppid = -1 ∨ (σ.family q).ppid ∈ σ.live
  waiting : ∀ p ∈ σ.waitList, (∃ q ∈ σ.live, (σ.family q).ppid = p) ∧
    ∀ d, some d ∈ σ.deadList → d.ppid ≠ p

namespace Placed

variable {p q : Pid}

theorem count_waitList_le (h : σ.Placed) (q : Pid) :
    (if σ.activeProc = some q then 1 else 0) + σ.waitList.count q ≤ σ.live.count q := by
  have hle := h.occ_le q
  unfold occ queued blocked at hle
  omega

/-- A process in `wait_list` is live, and it is not running. -/
theorem live_of_wait (h : σ.Placed) (hq : q ∈ σ.waitList) :
    q ∈ σ.live ∧ σ.activeProc ≠ some q ∧ σ.waitList.count q = 1 := by
  have hle := h.count_waitList_le q
  have hpos := List.count_pos_iff.2 hq
  have hone := List.nodup_iff_count_le_one.1 h.nodup q
  refine ⟨List.count_pos_iff.1 (by omega), fun ha => ?_, by omega⟩
  rw [if_pos ha] at hle
  omega

end Placed

namespace Tree

variable {p q : Pid}

/-- The pids in the list of a live parent are its live children. -/
theorem mem_children (h : σ.Tree) (hp : p ∈ σ.live) :
    q ∈ (σ.family p).children ↔ q ∈ σ.live ∧ (σ.family q).ppid = p := by
  rw [← List.count_pos_iff, h.children p hp q]
  split <;> simp_all

theorem fork (h : σ.Tree) (hinv : σ.Placed) (hp : σ.activeProc = some p)
    (live : σ'.live = σ.live ++ [σ.nextPid])
    (family : σ'.family =
      Function.update (Function.update σ.family σ.nextPid { ppid := p, children := [] }) p
        { σ.family p with children := (σ.family p).children ++ [σ.nextPid] })
    (deadList : σ'.deadList = σ.deadList) (waitList : σ'.waitList = σ.waitList) : σ'.Tree := by
  have hplive := hinv.live_of_active hp
  have hnew : σ.nextPid ∉ σ.live := fun hm => lt_irrefl _ (hinv.bound _ hm).2
  have hpc : p ≠ σ.nextPid := fun he => hnew (he ▸ hplive)
  have hlive : ∀ q, q ∈ σ'.live ↔ q ∈ σ.live ∨ q = σ.nextPid := by simp [live]
  have hppid : ∀ q, (σ'.family q).ppid = if q = σ.nextPid then p else (σ.family q).ppid := by
    intro q
    rw [family]
    by_cases hqp : q = p
    · subst hqp
      simp [hpc]
    · by_cases hqc : q = σ.nextPid
      · subst hqc
        simp [hqp]
      · simp [hqp, hqc]
  have hold : ∀ q ∈ σ.live, (σ'.family q).ppid = (σ.family q).ppid := by
    intro q hq
    rw [hppid, if_neg fun (he : q = σ.nextPid) => hnew (he ▸ hq)]
  refine ⟨fun r hr q => ?_, fun q hq => ?_, fun r hr => ?_⟩
  · simp only [hppid, hlive]
    by_cases hrp : r = p
    · subst hrp
      have hchildren : (σ'.family r).children = (σ.family r).children ++ [σ.nextPid] := by
        simp [family]
      rw [hchildren, List.count_append, h.children r hplive q, count_one]
      by_cases hqc : q = σ.nextPid
      · subst hqc
        simp [hnew]
      · simp [hqc]
    · have hrest : (σ'.family r).children =
          if r = σ.nextPid then [] else (σ.family r).children := by
        rw [family]
        by_cases hrc : r = σ.nextPid
        · subst hrc
          simp [hrp]
        · simp [hrp, hrc]
      rw [hrest]
      by_cases hrc : r = σ.nextPid
      · -- nobody has the new process as a parent yet
        subst hrc
        have hno : ¬((q ∈ σ.live ∨ q = σ.nextPid) ∧
            (if q = σ.nextPid then p else (σ.family q).ppid) = σ.nextPid) := by
          rintro ⟨hq, he⟩
          split at he
          · exact hpc he
          · rename_i hqc
            have hq := hq.resolve_right hqc
            rcases h.parent q hq with hpar | hpar
            · have hnn := hinv.nextPid
              rw [← he, hpar] at hnn
              exact absurd hnn (by decide)
            · exact hnew (he ▸ hpar)
        rw [if_pos rfl, if_neg hno, List.count_nil]
      · have hr := ((hlive r).1 hr).resolve_right hrc
        rw [if_neg hrc, h.children r hr q]
        by_cases hqc : q = σ.nextPid
        · subst hqc
          simp [hnew, Ne.symm hrp]
        · simp [hqc]
  · rw [hppid, hlive]
    split
    · exact .inr (.inl hplive)
    · rename_i hqc
      exact (h.parent q (((hlive q).1 hq).resolve_right hqc)).imp_right .inl
  · rw [waitList] at hr
    rw [deadList]
    obtain ⟨⟨q, hq, hqr⟩, hnone⟩ := h.waiting r hr
    exact ⟨⟨q, (hlive q).2 (.inl hq), (hold q hq).trans hqr⟩, hnone⟩

/-- The Exit of `p` takes it out of the live processes and out of the children of `pp`, and its
own children have no parent any more. -/
structure Departs (σ σ' : Kernel) (p pp : Pid) : Prop where
  live : ∀ q, q ∈ σ'.live ↔ q ≠ p ∧ q ∈ σ.live
  ppid : ∀ q ∈ σ'.live, (σ'.family q).ppid =
    if (σ.family q).ppid = p then -1 else (σ.family q).ppid
  children : ∀ r ∈ σ'.live, (σ'.family r).children =
    if r = pp then (σ.family r).children.erase p else (σ.family r).children
  told : ∀ r ∈ σ'.live, (σ.family p).ppid = r ↔ pp = r

theorem departs (h : σ.Tree) (hinv : σ.Placed) (hp : σ.activeProc = some p)
    (live : σ'.live = σ.live.erase p) (family : σ'.family = mourned ((σ.begin l).bereaved p) p)
    (hwalk : (σ.begin l).exitWalk p = (σ.family p).children) :
    Departs σ σ' p ((σ.begin l).bereaved p p).ppid := by
  have hplive := hinv.live_of_active hp
  have hlive : ∀ q, q ∈ σ'.live ↔ q ≠ p ∧ q ∈ σ.live := fun q => by
    rw [live, hinv.nodup.mem_erase_iff]
  have hpos : ∀ r ∈ σ'.live, r ≠ -1 := by
    rintro r hr rfl
    exact absurd (hinv.bound _ ((hlive _).1 hr).2).1 (by decide)
  refine ⟨hlive, fun q hq => ?_, fun r hr => ?_, fun r hr => ?_⟩
  · rw [family, mourned_bereaved_ppid, hwalk]
    simp only [h.mem_children hplive, ((hlive q).1 hq).2, true_and]
    rfl
  · rw [family, mourned_bereaved_children]
    by_cases hrpp : r = ((σ.begin l).bereaved p p).ppid
    · rw [if_pos ⟨hrpp ▸ hpos r hr, hrpp⟩, if_pos hrpp]
      rfl
    · rw [if_neg fun hx => hrpp hx.2, if_neg hrpp]
      rfl
  · have hppid : ((σ.begin l).bereaved p p).ppid =
        if p ∈ (σ.family p).children then -1 else (σ.family p).ppid := by
      rw [bereaved, hwalk]
      split <;> rfl
    rw [hppid]
    split
    · rename_i hself
      -- a process that is its own parent tells nobody
      rw [((h.mem_children hplive).1 hself).2]
      exact ⟨fun he => absurd he.symm ((hlive r).1 hr).1, fun he => absurd he.symm (hpos r hr)⟩
    · rfl

namespace Departs

variable {pp r : Pid}

/-- Who has the parent `r` afterwards. -/
theorem parent_iff (hd : Departs σ σ' p pp) (hinv : σ.Placed) (hr : r ∈ σ'.live) :
    (q ∈ σ'.live ∧ (σ'.family q).ppid = r) ↔ q ≠ p ∧ q ∈ σ.live ∧ (σ.family q).ppid = r := by
  obtain ⟨hrp, hrlive⟩ := (hd.live r).1 hr
  constructor
  · rintro ⟨hq, he⟩
    obtain ⟨hqp, hqlive⟩ := (hd.live q).1 hq
    rw [hd.ppid q hq] at he
    split at he
    · have hnn := (hinv.bound r hrlive).1
      rw [← he] at hnn
      exact absurd hnn (by decide)
    · exact ⟨hqp, hqlive, he⟩
  · rintro ⟨hqp, hqlive, he⟩
    have hq := (hd.live q).2 ⟨hqp, hqlive⟩
    rw [hd.ppid q hq, if_neg fun hm => hrp (he.symm.trans hm)]
    exact ⟨hq, he⟩

theorem count_children (hd : Departs σ σ' p pp) (h : σ.Tree) (hinv : σ.Placed) (hp : p ∈ σ.live)
    (hr : r ∈ σ'.live) (q : Pid) : (σ'.family r).children.count q =
      if q ∈ σ'.live ∧ (σ'.family q).ppid = r then 1 else 0 := by
  simp only [hd.parent_iff hinv hr]
  rw [hd.children r hr]
  have hcount := h.children r ((hd.live r).1 hr).2
  by_cases hrpp : r = pp
  · rw [if_pos hrpp]
    have hpr := (hd.told r hr).2 hrpp.symm
    by_cases hqp : q = p
    · subst hqp
      rw [List.count_erase_self, hcount, if_pos ⟨hp, hpr⟩, if_neg fun hx => hx.1 rfl]
    · rw [List.count_erase_of_ne hqp, hcount]
      simp [hqp]
  · rw [if_neg hrpp, hcount]
    by_cases hqp : q = p
    · subst hqp
      have hpr : ¬(σ.family q).ppid = r := fun he => hrpp ((hd.told r hr).1 he).symm
      simp [hpr]
    · simp [hqp]

end Departs

theorem exit (h : σ.Tree) (hinv : σ.Placed) (hp : σ.activeProc = some p) {status : Word}
    (live : σ'.live = σ.live.erase p) (family : σ'.family = mourned ((σ.begin l).bereaved p) p)
    (deadList : σ'.deadList = σ.deadList ++ if ((σ.begin l).bereaved p p).ppid = -1 then []
      else [some ⟨((σ.begin l).bereaved p p).ppid, p, status⟩])
    (waitList : σ'.waitList = σ.waitList.erase ((σ.begin l).bereaved p p).ppid)
    (hwalk : (σ.begin l).exitWalk p = (σ.family p).children) : σ'.Tree := by
  have hd := h.departs hinv hp live family hwalk
  refine ⟨fun r hr q => hd.count_children h hinv (hinv.live_of_active hp) hr q,
    fun q hq => ?_, fun r hr => ?_⟩
  · rw [hd.ppid q hq]
    split
    · exact .inl rfl
    · rename_i hqp
      exact (h.parent q ((hd.live q).1 hq).2).imp_right fun hpar => (hd.live _).2 ⟨hqp, hpar⟩
  · -- who still waits is not the parent of `p`, so it has another child
    rw [waitList] at hr
    have hr' := List.mem_of_mem_erase hr
    obtain ⟨hrlive, hra, hone⟩ := hinv.live_of_wait hr'
    have hrσ' := (hd.live r).2 ⟨fun he => hra (he ▸ hp), hrlive⟩
    have hrpp : r ≠ ((σ.begin l).bereaved p p).ppid := by
      intro he
      have hpos := List.count_pos_iff.2 hr
      rw [← he, List.count_erase_self, hone] at hpos
      exact absurd hpos (by decide)
    obtain ⟨⟨q, hq, hqr⟩, hnone⟩ := h.waiting r hr'
    have hqp : q ≠ p := by
      rintro rfl
      exact hrpp ((hd.told r hrσ').1 hqr).symm
    refine ⟨⟨q, (hd.parent_iff hinv hrσ').2 ⟨hqp, hq, hqr⟩⟩, fun d hd' => ?_⟩
    rw [deadList] at hd'
    rcases List.mem_append.1 hd' with hd' | hd'
    · exact hnone d hd'
    · split at hd'
      · simp at hd'
      · obtain rfl := Option.some.inj (List.mem_singleton.1 hd')
        exact Ne.symm hrpp

/-- The invariant is kept by a step in which allocations succeed and Exit reads no more than
the children. -/
theorem step (h : σ.Tree) (hinv : σ.Placed) (hend : σ.WalkEnds l) (hs : TreeStep σ σ' l) :
    σ'.Tree := by
  have hsame : σ'.live = σ.live → σ'.family = σ.family →
      (∀ d, some d ∈ σ'.deadList → some d ∈ σ.deadList) →
      (∀ r ∈ σ'.waitList, r ∈ σ.waitList ∨ (∃ q ∈ σ.live, (σ.family q).ppid = r) ∧
        ∀ d, some d ∈ σ.deadList → d.ppid ≠ r) → σ'.Tree := by
    intro hl hf hd hw
    refine ⟨hl ▸ hf ▸ h.children, hl ▸ hf ▸ h.parent, fun r hr => ?_⟩
    rw [hl, hf]
    obtain ⟨hq, hnone⟩ := (hw r hr).elim (h.waiting r) id
    exact ⟨hq, fun d hm => hnone d (hd d hm)⟩
  cases hs with
  | same pids tree =>
      exact hsame pids.2 tree.1 (fun d hd => tree.2.1 ▸ hd) fun r hr => .inl (tree.2.2 ▸ hr)
  | fork p active nextPid live family deadList waitList =>
      exact h.fork hinv active live family deadList waitList
  | exit p status active pids family deadList waitList exits =>
      exact h.exit hinv active pids.2 family deadList waitList (hend.exitWalk exits)
  | sleep p active call pids family deadList waitList child none =>
      refine hsame pids.2 family (fun d hd => deadList ▸ hd) fun r hr => ?_
      rw [waitList] at hr
      rcases List.mem_append.1 hr with hr | hr
      · exact .inl hr
      · obtain rfl := List.mem_singleton.1 hr
        obtain ⟨q, hq⟩ := List.exists_mem_of_ne_nil _ child
        exact .inr ⟨⟨q, (h.mem_children (hinv.live_of_active active)).1 hq⟩, none⟩
  | reap p k i active pids family deadList waitList =>
      exact hsame pids.2 family (fun d hd => mem_freeDead (deadList ▸ hd))
        fun r hr => .inl (waitList ▸ hr)

end Tree

/-! ## Runs -/

variable {b : Boot} {σ₀ : Kernel}

theorem tree_boot (hb : Booted σ₀) : σ₀.Tree where
  children p hp q := by
    rw [hb.live] at hp
    have hne : (-1 : Pid) ≠ p := by
      rintro rfl
      exact absurd hp (by decide)
    simp [hb.family, hne]
  parent q _ := by simp [hb.family]
  waiting p hp := by simp [hb.waitList] at hp

theorem linked_boot (hb : Booted σ₀) : σ₀.Linked where
  child p hp q _ hqp := by
    rw [hb.live] at hp
    rw [hb.family] at hqp
    obtain rfl : (-1 : Pid) = p := hqp
    exact absurd hp (by decide)
  bound q _ := by
    rw [hb.family, hb.nextPid]
    decide

theorem linked_of_run {tr : List (Move Kernel Label)} (hok : ∀ a ∈ b.procMallocs, a.ok = true)
    (h₀ : kernelStart b = some σ₀)
    (h : Run step (fun σ l σ' => σ.Allocates l σ' ∧ σ.IdlePauses l) σ₀ tr σ) :
    σ.Placed ∧ σ.Linked := by
  have hb := kernelStart_booted h₀
  refine h.invariant (I := fun σ => σ.Placed ∧ σ.Linked)
    ⟨placed_boot hb (kernelStart_ready hok h₀), linked_boot hb⟩ ?_
  rintro σ l σ' ⟨hinv, ht⟩ hs ⟨ha, hi⟩
  exact ⟨hinv.step (step_cases hs) ha hi, ht.step hinv (tree_step hinv (step_cases hs) ha hi)⟩

/-- The conditions on the steps of a run that keeps the process tree. -/
def TreeCondition (σ : Kernel) (l : Label) (σ' : Kernel) : Prop :=
  σ.Allocates l σ' ∧ σ.IdlePauses l ∧ σ.WalkEnds l

instance (σ σ' : Kernel) (l : Label) : Decidable (TreeCondition σ l σ') :=
  inferInstanceAs (Decidable (_ ∧ _ ∧ _))

theorem tree_of_run {tr : List (Move Kernel Label)} (hok : ∀ a ∈ b.procMallocs, a.ok = true)
    (h₀ : kernelStart b = some σ₀) (h : Run step TreeCondition σ₀ tr σ) :
    σ.Placed ∧ σ.Tree := by
  have hb := kernelStart_booted h₀
  refine h.invariant (I := fun σ => σ.Placed ∧ σ.Tree)
    ⟨placed_boot hb (kernelStart_ready hok h₀), tree_boot hb⟩ ?_
  rintro σ l σ' ⟨hinv, ht⟩ hs ⟨ha, hi, hend⟩
  have hsteps := step_cases hs
  exact ⟨hinv.step hsteps ha hi, ht.step hinv hend (tree_step hinv hsteps ha hi)⟩

/-- In every run from the boot in which allocations succeed, idle only pauses and each Exit meets
`NULL` behind the last child, the two copies of each parent link agree, and a process in
`wait_list` has a live child and no record in `dead_list`. -/
theorem run_tree {tr : List (Move Kernel Label)} (hok : ∀ a ∈ b.procMallocs, a.ok = true)
    (h₀ : kernelStart b = some σ₀) (h : Run step TreeCondition σ₀ tr σ) :
    (∀ p ∈ σ.live, ∀ q ∈ σ.live,
      (σ.family p).children.count q = if (σ.family q).ppid = p then 1 else 0) ∧
    (∀ q ∈ σ.live, (σ.family q).ppid = -1 ∨ (σ.family q).ppid ∈ σ.live) ∧
    ∀ p ∈ σ.waitList, (∃ q ∈ σ.live, (σ.family q).ppid = p) ∧
      ∀ d, some d ∈ σ.deadList → d.ppid ≠ p := by
  have ht := (tree_of_run hok h₀ h).2
  refine ⟨fun p hp q hq => ?_, ht.parent, ht.waiting⟩
  rw [ht.children p hp q]
  simp [hq]

/-- Init has two children and waits. The first has a child itself and exits, and then the second
has one and waits for it. -/
def familyLabels : List Label :=
  [smallCall .fork 0 0 0, smallCall .fork 0 0 0, smallCall .wait vmem1Base 0 0, resumption,
    smallCall .fork 0 0 0, smallCall .exit 7 0 0, resumption, smallCall .fork 0 0 0,
    smallCall .wait vmem1Base 0 0]

/-- The theorem on a run after which one process sleeps in Wait and one has lost its parent. -/
theorem run_tree_wait : ∃ σ₀ tr σ, kernelStart smallBoot = some σ₀ ∧
    Run step TreeCondition σ₀ tr σ ∧
    (σ.live = [0, 1, 3, 4, 5] ∧ σ.waitList = [3] ∧ (σ.family 4).ppid = -1) ∧
    (∀ p ∈ σ.live, ∀ q ∈ σ.live,
      (σ.family p).children.count q = if (σ.family q).ppid = p then 1 else 0) ∧
    (∀ q ∈ σ.live, (σ.family q).ppid = -1 ∨ (σ.family q).ppid ∈ σ.live) ∧
    ∀ p ∈ σ.waitList, (∃ q ∈ σ.live, (σ.family q).ppid = p) ∧
      ∀ d, some d ∈ σ.deadList → d.ppid ≠ p := by
  obtain ⟨σ₀, tr, σ, h₀, hr, hstate⟩ := bootExec_state (b := smallBoot) (C := TreeCondition)
    (t := familyLabels)
    (P := fun σ => σ.live = [0, 1, 3, 4, 5] ∧ σ.waitList = [3] ∧ (σ.family 4).ppid = -1)
    (by decide +kernel)
  exact ⟨σ₀, tr, σ, h₀, hr, hstate, run_tree (by decide) h₀ hr⟩

/-- The Exit of a process whose walk goes on behind its last child to the pid `q`. -/
def strayExit (q : Pid) : Label := { smallCall .exit 7 0 0 with world := { strays := [q] } }

/-- Init has the children 2 and 3. Child 2 has a child itself, behind whose node its list leads on
to the node of 3 in init's list: when 2 exits, 3 loses its parent, and init keeps its child. -/
theorem exit_orphans_sibling : ∃ σ₀ tr σ, kernelStart smallBoot = some σ₀ ∧
    Run step (fun σ l σ' => σ.Allocates l σ' ∧ σ.IdlePauses l) σ₀ tr σ ∧
    ¬∀ p ∈ σ.live, ∀ q ∈ σ.live,
      (σ.family p).children.count q = if (σ.family q).ppid = p then 1 else 0 := by
  obtain ⟨σ₀, tr, σ, h₀, hr, hinit, hsibling, hcount, hppid⟩ := bootExec_state (b := smallBoot)
    (C := fun σ l σ' => σ.Allocates l σ' ∧ σ.IdlePauses l)
    (t := [smallCall .fork 0 0 0, smallCall .fork 0 0 0, clockTick, resumption,
      smallCall .fork 0 0 0, strayExit 3])
    (P := fun σ => 0 ∈ σ.live ∧ 3 ∈ σ.live ∧ (σ.family 0).children.count 3 = 1 ∧
      (σ.family 3).ppid = -1)
    (by decide +kernel)
  refine ⟨σ₀, tr, σ, h₀, hr, fun htree => ?_⟩
  have hone := htree 0 hinit 3 hsibling
  rw [hcount, hppid] at hone
  exact absurd hone (by decide)

end Kernel

end Yalnix
