import Yalnix.Placement.Invariant

/-!
# What Wait does

`sysWait_cases` and `sysWaitResume_cases` list the ways in which Wait can go: it
fails, it reaps the first record that names the caller as the parent, or it puts
the caller into `wait_list` and blocks.
-/

namespace Yalnix

namespace Kernel

variable {σ σ' : Kernel} {p : Pid} {o : Outcome}

/-! ## The walk over `dead_list` -/

/-- Record `d` at position `k` is the first in `l` that names `p` as the parent. -/
structure FirstDead (l : List (Option DeadInfo)) (p : Pid) (k : ℕ) (d : DeadInfo) : Prop where
  at_index : l[k]? = some (some d)
  parent : d.ppid = p
  first : ∀ j < k, ∀ d', l[j]? = some (some d') → d'.ppid ≠ p

theorem deadIndex_none {k : ℕ} {l : List (Option DeadInfo)} (h : σ.deadIndex p k l = none)
    {d : DeadInfo} (hd : some d ∈ l) : d.ppid ≠ p := by
  induction l generalizing k with
  | nil => simp at hd
  | cons x l ih =>
      unfold deadIndex at h
      split at h
      · exact absurd h (by simp)
      · rename_i hx
        rcases List.mem_cons.1 hd with rfl | hd
        · exact hx
        · exact ih h hd

theorem deadIndex_some {k n : ℕ} {l : List (Option DeadInfo)}
    (h : σ.deadIndex p n l = some k) : n ≤ k ∧
      (∀ d, l[k - n]? = some (some d) → d.ppid = p) ∧
        ∀ j < k - n, ∀ d, l[j]? = some (some d) → d.ppid ≠ p := by
  induction l generalizing n with
  | nil => simp [deadIndex] at h
  | cons x l ih =>
      unfold deadIndex at h
      split at h
      · rename_i hx
        obtain rfl := Option.some.inj h
        refine ⟨le_refl _, fun d hd => ?_, fun j hj => by omega⟩
        rw [Nat.sub_self, List.getElem?_cons_zero] at hd
        obtain rfl := Option.some.inj hd
        exact hx
      · rename_i hx
        obtain ⟨hle, hat, hfirst⟩ := ih h
        have hk : k - n = (k - (n + 1)) + 1 := by omega
        refine ⟨by omega, fun d hd => ?_, fun j hj d hd => ?_⟩
        · rw [hk, List.getElem?_cons_succ] at hd
          exact hat d hd
        · cases j with
          | zero =>
              rw [List.getElem?_cons_zero] at hd
              obtain rfl := Option.some.inj hd
              exact hx
          | succ j =>
              rw [List.getElem?_cons_succ] at hd
              exact hfirst j (by omega) d hd

/-- Freeing a record adds none. -/
theorem mem_freeDead {l : List (Option DeadInfo)} {k i : ℕ} {d : DeadInfo}
    (h : some d ∈ freeDead l k i) : some d ∈ l := by
  have hset : ∀ {x}, some x ∈ l.set k none → some x ∈ l := by
    intro x hx
    rcases List.mem_or_eq_of_mem_set hx with hx | hx
    · exact hx
    · exact absurd hx (by simp)
  unfold freeDead listRemove at h
  split at h
  · exact hset h
  · cases hget : (l.set k none)[((i : Int) - 1).toNat]? with
    | none =>
        rw [hget] at h
        exact hset h
    | some x =>
        rw [hget] at h
        exact hset (List.mem_of_mem_eraseIdx h)

/-! ## Wait -/

/-- The record `d` at position `k` is reaped with the counter at `i`: its status
is stored, and it is freed. -/
structure Reaps (σ σ' : Kernel) (p : Pid) (statusPtr : Word) (i k : ℕ) (d : DeadInfo) :
    Prop where
  record : FirstDead σ.deadList p k d
  stored : ∃ τ, σ.storeInt statusPtr d.status = some τ ∧
    σ' = { τ with deadList := freeDead σ.deadList k (i + k) }

theorem scanDead_cases {statusPtr : Word} {i : ℕ} {otherwise : Option (Outcome × Kernel)}
    (h : σ.scanDead p statusPtr i otherwise = some (o, σ')) :
    (∃ k d, o = .ret d.pid ∧ Reaps σ σ' p statusPtr i k d) ∨
      (∀ d, some d ∈ σ.deadList → d.ppid ≠ p) ∧ otherwise = some (o, σ') := by
  unfold scanDead at h
  split at h
  · rename_i hnone
    exact .inr ⟨fun d hd => deadIndex_none hnone hd, h⟩
  · rename_i k hk
    split at h
    · rename_i d hd
      obtain ⟨τ, hτ, h⟩ := Option.map_eq_some_iff.1 h
      obtain ⟨rfl, rfl⟩ := Prod.mk.inj h
      obtain ⟨-, hat, hfirst⟩ := deadIndex_some hk
      obtain ⟨phys, -, rfl⟩ := Option.map_eq_some_iff.1 hτ
      exact .inl ⟨k, d, rfl, ⟨hd, hat d hd, hfirst⟩, _, hτ, rfl⟩
    · exact absurd h (by simp)

/-- Wait after `normal_schedule`. -/
theorem sysWaitResume_cases {statusPtr : Word} {i : ℕ}
    (h : σ.sysWaitResume p statusPtr i = some (o, σ')) :
    (∃ k d, o = .ret d.pid ∧ Reaps σ σ' p statusPtr i k d) ∨
      (∀ d, some d ∈ σ.deadList → d.ppid ≠ p) ∧ o = .ret error ∧ σ' = σ := by
  refine (scanDead_cases h).imp_right fun ⟨hnone, h⟩ => ⟨hnone, ?_⟩
  obtain ⟨rfl, rfl⟩ := Prod.mk.inj (Option.some.inj h)
  exact ⟨rfl, rfl⟩

/-- Wait from its start, for a process that finds idle ready. -/
theorem sysWait_cases (hcall : σ.Calling p) (h : σ.sysWait p = some (o, σ')) :
    (o = .ret error ∧ σ' = σ ∧
        (σ.badPointer p (σ.reg 0) = true ∨ (σ.family p).children = [])) ∨
      (σ.badPointer p (σ.reg 0) = false ∧ (σ.family p).children ≠ [] ∧
        ((∃ k d, o = .ret d.pid ∧ Reaps σ σ' p (σ.reg 0) 1 k d) ∨
          (∀ d, some d ∈ σ.deadList → d.ppid ≠ p) ∧ o = .switched ∧
            σ'.family = σ.family ∧ σ'.deadList = σ.deadList ∧
            σ'.waitList = σ.waitList ++ [p])) := by
  unfold sysWait at h
  dsimp only at h
  split at h
  · rename_i hbad
    obtain ⟨rfl, rfl⟩ := Prod.mk.inj (Option.some.inj h)
    exact .inl ⟨rfl, rfl, .inl hbad⟩
  rename_i hbad
  obtain ⟨_, -, h⟩ := Option.bind_eq_some_iff.1 h
  split at h
  · rename_i hlen
    obtain ⟨rfl, rfl⟩ := Prod.mk.inj (Option.some.inj h)
    exact .inl ⟨rfl, rfl, .inr (List.length_eq_zero_iff.1 (Nat.le_zero.1 hlen))⟩
  rename_i hlen
  have hne : (σ.family p).children ≠ [] := fun hn => hlen (by simp [hn])
  refine .inr ⟨by simpa using hbad, hne, (scanDead_cases h).imp_right fun ⟨hnone, h⟩ => ?_⟩
  have hq := Requeues.waitInsert hcall.ok p
  obtain ⟨-, rfl⟩ := Moves.block hcall.active hcall.ready hq h
  unfold block at h
  obtain ⟨⟨s, τ⟩, hs, h⟩ := Option.bind_eq_some_iff.1 h
  obtain ⟨hsw, -⟩ := normalSchedule_ok hq.ok (hq.ready hcall.ready) hs
  obtain rfl : s = .switched := hsw
  obtain ⟨-, rfl⟩ := Prod.mk.inj (Option.some.inj h)
  obtain ⟨hfamily, hdead, hwait⟩ := (normalSchedule_touches hs).same .tree (by simp)
  refine ⟨hnone, rfl, ?_⟩
  rw [waitInsert_ok hcall.ok] at hfamily hdead hwait
  exact ⟨hfamily, hdead, hwait⟩

end Kernel

end Yalnix
