import Yalnix.Sync.Creation
import Yalnix.Sync.Reclaim

/-!
# The ids of pipes, locks and condition variables

An object gets the id after the number of records in `reclaim_list`, so an id can be given
out while an object has it. Until that happens the records and the objects of each type have
the same ids in the same order, and no id is there twice. It never happens while each
Reclaim takes the newest object.
-/

namespace Yalnix

open Transition

/-- The type of the objects that an Init call makes. -/
def Call.makes : Call → Option Kind
  | .pipeInit => some .pipe
  | .lockInit => some .lock
  | .cvarInit => some .cvar
  | _ => none

/-- The type of the object that step `l` makes. -/
def Label.makes (l : Label) : Option Kind := l.call.bind Call.makes

namespace Kernel

variable {σ σ' σ₀ τ : Kernel} {l : Label} {p : Pid} {o : Outcome} {a : ℕ} {k k' : Kind}
  {tr : List (Move Kernel Label)} {b : Boot}

/-- The ids of the objects of a type, in the order of their list. -/
def ids (σ : Kernel) : Kind → List Int
  | .pipe => σ.pipes.column PipeInfo.pipeid
  | .lock => σ.locks.column LockInfo.lockid
  | .cvar => σ.cvars.column CvarInfo.cvarid

/-- The ids in `reclaim_list`. -/
def recordIds (σ : Kernel) : List Int := σ.reclaimList.map ReclaimInfo.id

/-- The ids of the records for objects of a type. -/
def recordIdsOf (σ : Kernel) (k : Kind) : List Int :=
  (σ.reclaimList.filter fun r => r.type = k).map ReclaimInfo.id

/-- No id is there twice, and the records of each type stand for its objects. -/
structure Identified (σ : Kernel) : Prop where
  nodup : σ.recordIds.Nodup
  paired : ∀ k, σ.ids k = σ.recordIdsOf k

/-- The step makes an object whose id another one has. -/
def Collides (σ : Kernel) (l : Label) : Prop := l.makes ≠ none ∧ σ.newId ∈ σ.recordIds

instance (σ : Kernel) (l : Label) : Decidable (σ.Collides l) :=
  inferInstanceAs (Decidable (_ ∧ _))

/-- The step is no Reclaim, or one of the newest object. -/
def TakesLast (σ : Kernel) (l : Label) : Prop :=
  l.call = some .reclaim → ∀ r ∈ σ.reclaimList.getLast?, l.arg 0 = r.id

/-! ## What a step does to the ids -/

theorem ids_withObject (hint : ℕ) : (σ.withObject k hint).ids k' =
    if k' = k then σ.ids k ++ [σ.newId] else σ.ids k' := by
  cases k <;> cases k' <;> simp [withObject, ids, Table.column_alloc]

theorem ids_of_tables (hpipes : σ'.pipes = σ.pipes) (hlocks : σ'.locks = σ.locks)
    (hcvars : σ'.cvars = σ.cvars) (k : Kind) : σ'.ids k = σ.ids k := by
  cases k with
  | pipe => rw [ids, ids, hpipes]
  | lock => rw [ids, ids, hlocks]
  | cvar => rw [ids, ids, hcvars]

/-- With memory an Init call makes its object. -/
theorem initCall_makes (hok : σ.mem.AllOk) (h : σ.initCall p k = some (o, σ')) :
    σ'.reclaimList = σ.reclaimList ++ [⟨σ.newId, k⟩] ∧
      ∀ k', σ'.ids k' = if k' = k then σ.ids k ++ [σ.newId] else σ.ids k' := by
  obtain ⟨hint, hcall⟩ := initCall_of_checked (k := k) p fun i _ => hok.mallocOk i
  rw [hcall] at h
  obtain ⟨τ, hτ, h⟩ := Option.bind_eq_some_iff.1 h
  rw [initTail_all fun i _ => hok.mallocOk i] at h
  have hnode := stored_mallocOk (σ := σ) k τ 0
  have hrecord := stored_mallocOk (σ := σ) k τ 1
  rw [hok.mallocOk] at hnode hrecord
  obtain ⟨τ', hτ', ⟨hpipes, hlocks, hcvars⟩, hrec, -⟩ :=
    insertObject_both (σ := stored k σ.mem τ) (k := k) hint hnode hrecord
  obtain ⟨-, rfl⟩ := Prod.mk.inj (Option.some.inj (h.symm.trans (congrArg some hτ')))
  obtain ⟨phys, -, rfl⟩ := Option.map_eq_some_iff.1 hτ
  refine ⟨hrec, fun k' => ?_⟩
  rw [ids_of_tables hpipes hlocks hcvars, ids_withObject]
  rfl

/-- What a step does to the objects and the records, if allocations succeed. -/
inductive IdentityStep (σ σ' : Kernel) (l : Label) : Prop
  | same (makes : l.makes = none) (records : σ'.reclaimList = σ.reclaimList)
      (ids : ∀ k, σ'.ids k = σ.ids k)
  | make (k : Kind) (makes : l.makes = some k)
      (records : σ'.reclaimList = σ.reclaimList ++ [⟨σ.newId, k⟩])
      (ids : ∀ k', σ'.ids k' = if k' = k then σ.ids k ++ [σ.newId] else σ.ids k')
  | reclaim (r : ReclaimInfo) (a : ℕ) (makes : l.makes = none) (call : l.call = some .reclaim)
      (arg : l.arg 0 = r.id) (mem : r ∈ σ.reclaimList) (object : a ∈ σ.objects r.type)
      (id : σ.objectId a r.type = r.id)
      (records : σ'.reclaimList = σ.reclaimList.eraseP fun r' => r.id = r'.id)
      (ids : ∀ k, σ'.ids k = (if k = r.type then σ.dropObject a k else σ).ids k)

theorem ids_of_objects (h : View.objects.Same σ σ') (k : Kind) : σ'.ids k = σ.ids k := by
  obtain ⟨-, ⟨hpipes, hpipeid⟩, ⟨hlocks, hlockid⟩, hcvars, hcvarid⟩ := h
  cases k with
  | pipe => simp only [ids, Table.column, hpipes, hpipeid]
  | lock => simp only [ids, Table.column, hlocks, hlockid]
  | cvar => simp only [ids, Table.column, hcvars, hcvarid]

theorem identity_step (hs : Steps σ l σ') (hal : σ.Allocates l σ') : IdentityStep σ σ' l := by
  have hsame : l.makes = none → View.objects.Same σ σ' → IdentityStep σ σ' l :=
    fun hm hv => .same hm hv.1 (ids_of_objects hv)
  have hs' := hs
  cases hs with
  | @call u p c o τ hl hu hv hp hc h =>
      have hcall : l.call = some c := by simp [Label.call, hl, hv, hc]
      have hmakes : l.makes = c.makes := by rw [Label.makes, hcall, Option.bind_some]
      have hfin := (finish_touches o τ).same .objects (by simp)
      have hinit : ∀ k, c.makes = some k → ((σ.begin l).enter u).initCall p k = some (o, τ) →
          IdentityStep σ (finish (o, τ)) l := by
        intro k hk hrun
        obtain ⟨hrec, hids⟩ := initCall_makes (k := k) (σ := (σ.begin l).enter u) hal.begin hrun
        refine .make k (hmakes.trans hk) (hfin.1.trans hrec) fun k' => ?_
        rw [ids_of_objects hfin, hids]
        cases k <;> cases k' <;> rfl
      cases c with
      | pipeInit => exact hinit .pipe rfl h
      | lockInit => exact hinit .lock rfl h
      | cvarInit => exact hinit .cvar rfl h
      | reclaim =>
          rcases sysReclaim_cases (σ := (σ.begin l).enter u) (p := p) hal.begin h with
            ⟨-, rfl⟩ | ⟨-, r, a, hfind, hmem, hid, rfl⟩
          · refine .same hmakes hfin.1 fun k => ?_
            rw [ids_of_objects hfin]
            cases k <;> rfl
          · have hx := List.find?_some hfind
            have hx := of_decide_eq_true hx
            rw [objects_enter] at hmem
            rw [objectId_enter, hx] at hid
            refine .reclaim r a hmakes hcall ?_ (List.mem_of_find?_eq_some hfind) hmem hid ?_ ?_
            · have harg : l.arg 0 = (((σ.begin l).enter u).reg 0).toInt := by
                simp [Label.arg, hl, enter, reg]
              exact harg.trans hx
            · rw [hfin.1, ← hx]
              cases r.type <;> rfl
            · intro k
              rw [ids_of_objects hfin]
              cases r.type <;> cases k <;> rfl
      | _ =>
          exact hsame hmakes
            ((call_touches (enter_touches σ l u) (sysCall_touches h) o).same .objects
              (by simp [callViews]))
  | @resume p o τ hl hu hp h =>
      have ht := call_touches (restore_touches σ l p) (resumeCall_touches h) o
      refine hsame (by simp [Label.makes, Label.call, hl]) (ht.same .objects ?_)
      cases (σ.pcb p).kctxt <;> simp [resumeViews]
  | _ =>
      have hcall : l.call = none := by simp_all [Label.call]
      exact hsame (by simp [Label.makes, hcall]) (hs'.quiet hcall (by simp_all) (by simp))

/-! ## The invariant -/

/-- Where no id is there twice, taking out the record with an id takes out all of them. -/
theorem eraseP_ids {rs : List ReclaimInfo} (h : (rs.map ReclaimInfo.id).Nodup) (x : Int) :
    rs.eraseP (fun r => x = r.id) = rs.filter fun r => r.id ≠ x := by
  induction rs with
  | nil => rfl
  | cons r rs ih =>
      rw [List.map_cons, List.nodup_cons] at h
      by_cases hx : x = r.id
      · subst hx
        rw [List.eraseP_cons_of_pos (by simp), List.filter_cons_of_neg (by simp)]
        symm
        rw [List.filter_eq_self]
        intro r' hr'
        have hne : r'.id ≠ r.id := fun he => h.1 (he ▸ List.mem_map_of_mem hr')
        simpa using hne
      · rw [List.eraseP_cons_of_neg (by simpa using hx),
          List.filter_cons_of_pos (by simpa using Ne.symm hx), ih h.2]

theorem ids_dropObject (hn : (σ.ids k).Nodup) (ha : a ∈ σ.objects k) :
    (σ.dropObject a k).ids k = (σ.ids k).filter fun x => x ≠ σ.objectId a k := by
  cases k with
  | pipe => exact Table.column_free hn ha
  | lock => exact Table.column_free hn ha
  | cvar => exact Table.column_free hn ha

namespace Identified

theorem nodup_ids (h : Identified σ) (k : Kind) : (σ.ids k).Nodup := by
  rw [h.paired]
  exact h.nodup.sublist (List.filter_sublist.map _)

/-- An id of a record is not that of an object of another type. -/
theorem not_mem_ids (h : Identified σ) {r : ReclaimInfo} (hr : r ∈ σ.reclaimList)
    (hk : k ≠ r.type) : r.id ∉ σ.ids k := by
  rw [h.paired]
  intro hmem
  obtain ⟨r', hr', hid⟩ := List.mem_map.1 hmem
  obtain ⟨hr', htype⟩ := List.mem_filter.1 hr'
  obtain rfl := List.inj_on_of_nodup_map h.nodup hr' hr hid
  exact hk (of_decide_eq_true htype).symm

theorem step (h : Identified σ) (hs : Steps σ l σ') (hal : σ.Allocates l σ')
    (hnew : ¬Collides σ l) : Identified σ' := by
  cases identity_step hs hal with
  | same _ records ids =>
      constructor
      · rw [recordIds, records]
        exact h.nodup
      · intro k
        rw [ids, recordIdsOf, records]
        exact h.paired k
  | make k makes records ids =>
      have hfresh : σ.newId ∉ σ.recordIds := fun hmem => hnew ⟨by simp [makes], hmem⟩
      constructor
      · rw [recordIds, records, List.map_append, List.map_singleton]
        exact List.nodup_append_comm.1 (List.nodup_cons.2 ⟨hfresh, h.nodup⟩)
      · intro k'
        rw [ids, recordIdsOf, records, List.filter_append, List.map_append]
        by_cases hk : k' = k
        · subst hk
          simp [h.paired, recordIdsOf]
        · have hk' : k ≠ k' := Ne.symm hk
          simp [hk, hk', h.paired, recordIdsOf]
  | reclaim r a _ _ _ mem object id records ids =>
      have hids : ∀ k, σ'.ids k = (σ.ids k).filter fun x => x ≠ r.id := by
        intro k
        rw [ids]
        by_cases hk : k = r.type
        · subst hk
          rw [if_pos rfl, ids_dropObject (h.nodup_ids _) object, id]
        · rw [if_neg hk]
          symm
          rw [List.filter_eq_self]
          intro x hx
          have hne : x ≠ r.id := fun he => h.not_mem_ids mem hk (he ▸ hx)
          simpa using hne
      rw [eraseP_ids h.nodup] at records
      constructor
      · rw [recordIds, records]
        exact h.nodup.sublist (List.filter_sublist.map _)
      · intro k
        rw [hids, h.paired, recordIdsOf, recordIdsOf, records, List.filter_filter,
          List.filter_map, List.filter_filter]
        congr 1
        apply List.filter_congr
        intro r' _
        simp [Bool.and_comm]

theorem boot (hb : Booted σ) : Identified σ := by
  constructor
  · simp [recordIds, hb.reclaimList]
  · intro k
    cases k with
    | pipe => simp [ids, recordIdsOf, Table.column, hb.pipes, hb.reclaimList]
    | lock => simp [ids, recordIdsOf, Table.column, hb.locks, hb.reclaimList]
    | cvar => simp [ids, recordIdsOf, Table.column, hb.cvars, hb.reclaimList]

end Identified

/-- An id that is given out a second time is there twice. -/
theorem not_identified_of_collides (hs : Steps σ l σ') (hal : σ.Allocates l σ')
    (hc : Collides σ l) : ¬Identified σ' := by
  obtain ⟨hmakes, hmem⟩ := hc
  intro h
  cases identity_step hs hal with
  | same makes => exact hmakes makes
  | reclaim _ _ makes => exact hmakes makes
  | make k _ records =>
      have hnodup := h.nodup
      rw [recordIds, records, List.map_append, List.map_singleton] at hnodup
      exact (List.nodup_cons.1 (List.nodup_append_comm.1 hnodup)).1 hmem

/-! ## When only the newest object is reclaimed -/

/-- The ids of the records are the numbers from 1 on. -/
def Consecutive (σ : Kernel) : Prop :=
  σ.recordIds = (List.range σ.reclaimList.length).map fun i : ℕ => (i : Int) + 1

theorem Consecutive.newId_not_mem (h : Consecutive σ) : σ.newId ∉ σ.recordIds := by
  rw [h]
  intro hmem
  obtain ⟨i, hi, he⟩ := List.mem_map.1 hmem
  have hlt := List.mem_range.1 hi
  unfold newId at he
  omega

theorem Consecutive.step (h : Consecutive σ) (hs : Steps σ l σ') (hal : σ.Allocates l σ')
    (hlast : TakesLast σ l) : Consecutive σ' := by
  unfold Consecutive at h ⊢
  cases identity_step hs hal with
  | same _ records _ =>
      rw [recordIds, records]
      exact h
  | make k _ records _ =>
      rw [recordIds, records, List.map_append, List.length_append, List.length_singleton,
        List.range_succ, List.map_append]
      exact congrArg₂ (· ++ ·) h rfl
  | reclaim r a _ call arg mem _ _ records _ =>
      obtain ⟨rs, r', hrs⟩ := List.eq_nil_or_concat σ.reclaimList |>.resolve_left
        (List.ne_nil_of_mem mem)
      rw [List.concat_eq_append] at hrs
      have hid : r.id = r'.id := by
        rw [← arg]
        exact hlast call r' (by simp [hrs])
      rw [recordIds, hrs, List.map_append, List.length_append, List.length_singleton,
        List.range_succ, List.map_append] at h
      obtain ⟨hrest, hnew⟩ := List.append_inj' h rfl
      have hnew : r'.id = rs.length + 1 := by simpa using hnew
      have herase : σ'.reclaimList = rs := by
        rw [records, hrs, hid, List.eraseP_append_right, List.eraseP_cons_of_pos (by simp),
          List.append_nil]
        intro r'' hr''
        have hmem : r''.id ∈ rs.map ReclaimInfo.id := List.mem_map_of_mem hr''
        rw [hrest] at hmem
        obtain ⟨i, hi, he⟩ := List.mem_map.1 hmem
        have hlt := List.mem_range.1 hi
        have hne : r'.id ≠ r''.id := by omega
        simpa using hne
      rw [recordIds, herase]
      exact hrest

/-- In every run in which allocations succeed, the ids are all different and the records of
each type stand for its objects, in order, in every state reached, if and only if no Init
call gives out an id that an object has; and none does while each Reclaim takes the newest
object. -/
theorem run_identified_iff (h₀ : kernelStart b = some σ₀)
    (h : Run Kernel.step (fun σ l σ' => σ.Allocates l σ') σ₀ tr σ) :
    ((∀ m ∈ tr, Identified m.after) ↔ ∀ m ∈ tr, ¬Collides m.before m.label) ∧
      ((∀ m ∈ tr, TakesLast m.before m.label) → ∀ m ∈ tr, ¬Collides m.before m.label) := by
  have hb := kernelStart_booted h₀
  refine ⟨⟨fun hall m hm hc => ?_, fun hnew => ?_⟩, fun hlast => ?_⟩
  · obtain ⟨_, -, hs, hal⟩ := h.reaches_before hm
    exact not_identified_of_collides (step_cases hs) hal hc (hall m hm)
  · intro m hm
    have hr := h.restrict (D := fun σ l σ' => σ.Allocates l σ' ∧ ¬Collides σ l) fun m hm => by
      obtain ⟨_, -, -, hal⟩ := h.reaches_before hm
      exact ⟨hal, hnew m hm⟩
    obtain ⟨_, hr', hs, hal, hc⟩ := hr.reaches_before hm
    have hbefore : Identified m.before := hr'.invariant (I := fun σ => Identified σ)
      (.boot hb) fun _ _ _ hinv hs hC => hinv.step (step_cases hs) hC.1 hC.2
    exact hbefore.step (step_cases hs) hal hc
  · intro m hm hc
    have hr := h.restrict (D := fun σ l σ' => σ.Allocates l σ' ∧ TakesLast σ l) fun m hm => by
      obtain ⟨_, -, -, hal⟩ := h.reaches_before hm
      exact ⟨hal, hlast m hm⟩
    obtain ⟨_, hr', -, -⟩ := hr.reaches_before hm
    have hbefore : Consecutive m.before := hr'.invariant (I := fun σ => Consecutive σ)
      (by simp [Consecutive, recordIds, hb.reclaimList])
      fun _ _ _ hinv hs hC => hinv.step (step_cases hs) hC.1 hC.2
    exact hbefore.newId_not_mem hc.2

/-- The theorem on a run in which two pipes get the same id. -/
theorem run_identified_iff_pipes : ∃ σ₀ tr σ, kernelStart smallBoot = some σ₀ ∧
    Run Kernel.step (fun σ l σ' => σ.Allocates l σ') σ₀ tr σ ∧ σ.ids .pipe = [2, 2] ∧
    ((∀ m ∈ tr, Identified m.after) ↔ ∀ m ∈ tr, ¬Collides m.before m.label) ∧
      ((∀ m ∈ tr, TakesLast m.before m.label) → ∀ m ∈ tr, ¬Collides m.before m.label) := by
  obtain ⟨σ₀, tr, σ, h₀, hr, hids⟩ := bootExec_state (b := smallBoot)
    (C := fun σ l σ' => σ.Allocates l σ') (P := fun σ => σ.ids .pipe = [2, 2])
    (t := [smallCall .pipeInit vmem1Base 0 0, smallCall .pipeInit vmem1Base 0 0,
      smallCall .reclaim 1 0 0, smallCall .pipeInit vmem1Base 0 0])
    (by decide +kernel)
  exact ⟨σ₀, tr, σ, h₀, hr, hids, run_identified_iff h₀ hr⟩

end Kernel

end Yalnix
