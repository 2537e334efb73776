import Yalnix.Model.PipeBuffer

/-!
# The discipline of the pipe buffers

Every pipe should own the block that its `pipe_buffer` points to the start of, copies should stay
within that block, and `free` should be given its start, once. A PipeRead that takes bytes moves
`pipe_buffer` by their number before it frees it, so that nothing but an empty PipeRead frees what
`malloc` returned. It does not look at what `malloc` returns for the new buffer either, and a
PipeRead that has waited may find its pipe gone. A PipeInit that fails after it has got a buffer
does not free it.
-/

namespace Yalnix.Buffers

open Transition

/-- No pipe and no block; what the memory holds does not matter. -/
def boot (bytes : ℕ → ℕ → Byte) : Buffers :=
  ⟨.empty, [], [], 0, ∅, bytes, [], 0⟩

/-- Blocks `1, .., made` have been allocated, and each is allocated still or has been freed
once. -/
structure HeapOk (β : Buffers) : Prop where
  made : ∀ n, n ∈ β.live ∨ n ∈ β.freed ↔ 1 ≤ n ∧ n ≤ β.made
  apart : ∀ n ∈ β.live, n ∉ β.freed
  once : β.freed.Nodup

/-- The discipline: a pipe's buffer is the start of an allocated block that no other pipe uses; no
copy has left its block, and nothing has been freed but the start of an allocated block; and a
block that is still allocated is a pipe's. -/
structure Disciplined (β : Buffers) : Prop extends HeapOk β where
  start : ∀ a ∈ β.pipes.list,
    (β.pipes.cell a).pipeBuffer.offset = 0 ∧ (β.pipes.cell a).pipeBuffer.block ∈ β.live
  own : ∀ a ∈ β.pipes.list, ∀ b ∈ β.pipes.list,
    (β.pipes.cell a).pipeBuffer.block = (β.pipes.cell b).pipeBuffer.block → a = b
  faults : β.faults = 0
  kept : ∀ n ∈ β.live, ∃ a ∈ β.pipes.list, (β.pipes.cell a).pipeBuffer.block = n

/-- A pipe holds no more bytes than a buffer has, and no PipeRead waits for a negative number of
them. -/
structure Bounded (β : Buffers) : Prop where
  lens : ∀ a ∈ β.pipes.list,
    0 ≤ (β.pipes.cell a).curLen ∧ (β.pipes.cell a).curLen ≤ pipeBufSize
  readers : ∀ r ∈ β.readers, 0 ≤ r.len

/-- What the loop of a PipeRead finds: its pipe, with too few bytes; or with enough of them for
a PipeRead of none, and a new block. -/
def LoopCareful (β : Buffers) (r : PipeReader) (ok : Bool) : Prop :=
  r.p ∈ β.pipes.list ∧ ((β.pipes.cell r.p).curLen < r.len ∨ r.len = 0 ∧ ok = true)

/-- A PipeInit that gets its buffer gets the head of the waiting list and the node of `pipe_list`
too. -/
def InitCareful (ok : ℕ → Bool) : Prop :=
  ok 0 = true → ok 1 = true → ok 2 = true → ok 3 = true ∧ ok 4 = true

/-- A call that keeps the discipline: no PipeInit fails with its buffer, no PipeRead takes bytes,
the one of no bytes gets its block, and no PipeRead that has waited goes on with a pipe that is
gone. -/
def Careful (β : Buffers) : PipeOp → Prop
  | .init _ ok => InitCareful ok
  | .read pipeId len ok => 0 ≤ pipeId → 0 ≤ len →
      ∀ a ∈ β.pipes.find? fun p => p.pipeid = pipeId, β.LoopCareful ⟨a, pipeId, len, false⟩ ok
  | .again i ok => ∀ r ∈ β.readers[i]?,
      (r.exist || β.pipes.any fun p1 => p1.pipeid = r.pipeId) = true → β.LoopCareful r ok
  | _ => True

instance (β : Buffers) (r : PipeReader) (ok : Bool) : Decidable (β.LoopCareful r ok) :=
  inferInstanceAs (Decidable (_ ∧ _))

instance (ok : ℕ → Bool) : Decidable (InitCareful ok) :=
  inferInstanceAs (Decidable (_ → _ → _ → _ ∧ _))

instance (β : Buffers) : DecidablePred β.Careful
  | .init _ ok => inferInstanceAs (Decidable (InitCareful ok))
  | .write _ _ _ | .reclaim _ => inferInstanceAs (Decidable True)
  | .read _ _ _ => inferInstanceAs (Decidable (_ → _ → ∀ a ∈ Table.find? _ _, _))
  | .again i _ => inferInstanceAs (Decidable (∀ r ∈ β.readers[i]?, _ → _))

variable {β β' : Buffers} {q : Ptr} {n len : Int} {a hint : ℕ} {ok : Bool} {src : ℕ → Byte}
  {r : PipeReader} {op : PipeOp}

/-! ## Blocks -/

theorem access_of_inBlock (h : β.InBlock q n) : β.access q n = β := if_pos h

@[simp] theorem access_live : (β.access q n).live = β.live := by
  unfold access
  split <;> rfl

@[simp] theorem access_pipes : (β.access q n).pipes = β.pipes := by
  unfold access
  split <;> rfl

@[simp] theorem access_readers : (β.access q n).readers = β.readers := by
  unfold access
  split <;> rfl

@[simp] theorem free_pipes : (β.free q).pipes = β.pipes := by
  unfold free
  split
  · rfl
  · split <;> rfl

@[simp] theorem free_readers : (β.free q).readers = β.readers := by
  unfold free
  split
  · rfl
  · split <;> rfl

theorem free_live_subset : (β.free q).live ⊆ β.live := by
  unfold free
  split
  · exact Finset.Subset.refl _
  · split
    · exact Finset.erase_subset _ _
    · exact Finset.Subset.refl _

/-- `free` of a pointer that has moved. -/
theorem faults_free_of_moved (h : q.offset ≠ 0) : (β.free q).faults = β.faults + 1 := by
  have hnull : q ≠ .null := by
    rintro rfl
    exact h rfl
  rw [free, if_neg hnull, if_neg fun hq => h hq.1]

@[simp] theorem alloc_pipes : (β.alloc ok).2.pipes = β.pipes := by
  cases ok <;> rfl

@[simp] theorem alloc_readers : (β.alloc ok).2.readers = β.readers := by
  cases ok <;> rfl

theorem alloc_null_iff : (β.alloc ok).1 = .null ↔ ok = false := by
  cases ok with
  | false => simp [alloc]
  | true => simp [alloc, Ptr.null]

namespace HeapOk

theorem pos (h : β.HeapOk) (hn : a ∈ β.live) : 1 ≤ a := ((h.made a).1 (.inl hn)).1

theorem fresh (h : β.HeapOk) : β.made + 1 ∉ β.live ∧ β.made + 1 ∉ β.freed := by
  constructor
  · intro hn
    exact absurd ((h.made _).1 (.inl hn)).2 (by omega)
  · intro hn
    exact absurd ((h.made _).1 (.inr hn)).2 (by omega)

/-- `malloc` makes a new block. -/
theorem alloc (h : β.HeapOk) : (β.alloc ok).2.HeapOk := by
  cases ok with
  | false => exact h
  | true =>
      constructor
      · intro n
        change n ∈ insert (β.made + 1) β.live ∨ n ∈ β.freed ↔ 1 ≤ n ∧ n ≤ β.made + 1
        rw [Finset.mem_insert, or_assoc, h.made n]
        omega
      · intro n hn
        rcases Finset.mem_insert.1 hn with rfl | hn
        · exact h.fresh.2
        · exact h.apart n hn
      · exact h.once

/-- `free` of the start of an allocated block. -/
theorem free_eq (h : β.HeapOk) (h₀ : q.offset = 0) (hq : q.block ∈ β.live) : β.free q =
    { β with live := β.live.erase q.block, freed := β.freed ++ [q.block] } := by
  have hnull : q ≠ .null := by
    rintro rfl
    exact absurd (h.pos hq) (by simp [Ptr.null])
  rw [Buffers.free, if_neg hnull, if_pos ⟨h₀, hq⟩]

theorem free (h : β.HeapOk) (h₀ : q.offset = 0) (hq : q.block ∈ β.live) : (β.free q).HeapOk := by
  rw [h.free_eq h₀ hq]
  constructor
  · intro n
    change n ∈ β.live.erase q.block ∨ n ∈ β.freed ++ [q.block] ↔ 1 ≤ n ∧ n ≤ β.made
    rw [← h.made n, Finset.mem_erase, List.mem_append, List.mem_singleton]
    by_cases hn : n = q.block
    · simp [hn, hq]
    · simp [hn]
  · intro n hn
    obtain ⟨hne, hn⟩ := Finset.mem_erase.1 hn
    change n ∉ β.freed ++ [q.block]
    simp [h.apart n hn, hne]
  · change (β.freed ++ [q.block]).Nodup
    rw [← List.concat_eq_append]
    exact h.once.concat (h.apart _ hq)

end HeapOk

theorem copyFrom_of_inBlock (h : β.InBlock q n) : (β.copyFrom q n).2 = β := access_of_inBlock h

theorem copyTo_of_inBlock (h : β.InBlock q n) (src : ℕ → Byte) : ∃ bytes, β.copyTo q n src =
    { β with bytes := bytes } := by
  unfold copyTo
  rw [access_of_inBlock h]
  exact ⟨_, rfl⟩

/-! ## The calls that keep the discipline -/

namespace Disciplined

/-- What the discipline reads is the heap and the pointers of the pipes. -/
theorem congr (h : β.Disciplined) (hlist : β'.pipes.list = β.pipes.list)
    (hbuf : ∀ a, (β'.pipes.cell a).pipeBuffer = (β.pipes.cell a).pipeBuffer)
    (hheap : (β'.made, β'.live, β'.freed, β'.faults) =
      (β.made, β.live, β.freed, β.faults)) : β'.Disciplined := by
  obtain ⟨hmade, hlive, hfreed, hfaults⟩ := by simpa using hheap
  constructor
  · constructor
    · rw [hmade, hlive, hfreed]
      exact h.made
    · rw [hlive, hfreed]
      exact h.apart
    · rw [hfreed]
      exact h.once
  · intro a ha
    rw [hbuf, hlive]
    exact h.start a (hlist ▸ ha)
  · intro a ha b hb hab
    rw [hbuf, hbuf] at hab
    exact h.own a (hlist ▸ ha) b (hlist ▸ hb) hab
  · rw [hfaults]
    exact h.faults
  · intro n hn
    rw [hlive] at hn
    simp only [hlist, hbuf]
    exact h.kept n hn

theorem ne_fresh (h : β.Disciplined) (ha : a ∈ β.pipes.list) :
    (β.pipes.cell a).pipeBuffer.block ≠ β.made + 1 := by
  intro he
  exact h.fresh.1 (he ▸ (h.start a ha).2)

/-- The buffer of a PipeInit that fails is no pipe's. -/
theorem not_of_alloc (h : β.Disciplined) : ¬(β.alloc true).2.Disciplined := by
  intro h'
  obtain ⟨a, ha, he⟩ := h'.kept _ (Finset.mem_insert_self _ _)
  exact h.ne_fresh ha he

/-- A new pipe with a new buffer. -/
theorem newPipe (h : β.Disciplined) (hint : ℕ) (id : Int) :
    ({ (β.alloc true).2 with
        pipes := β.pipes.alloc hint ⟨id, 0, (β.alloc true).1⟩ } : Buffers).Disciplined := by
  have hheap : (β.alloc true).2.HeapOk := h.alloc
  have hold : ∀ a ∈ β.pipes.list, (β.pipes.alloc hint ⟨id, 0, (β.alloc true).1⟩).cell a =
      β.pipes.cell a := fun a ha => Table.cell_alloc_of_mem ha hint _
  have hnew := Table.cell_alloc_self β.pipes hint (⟨id, 0, (β.alloc true).1⟩ : BufferInfo)
  constructor
  · exact ⟨hheap.made, hheap.apart, hheap.once⟩
  · intro a ha
    change ((β.pipes.alloc hint _).cell a).pipeBuffer.offset = 0 ∧
      ((β.pipes.alloc hint _).cell a).pipeBuffer.block ∈ insert (β.made + 1) β.live
    rcases List.mem_append.1 ha with ha | ha
    · rw [hold a ha]
      exact ⟨(h.start a ha).1, Finset.mem_insert_of_mem (h.start a ha).2⟩
    · rw [List.mem_singleton.1 ha, hnew]
      exact ⟨rfl, Finset.mem_insert_self _ _⟩
  · intro a ha b hb hab
    change ((β.pipes.alloc hint _).cell a).pipeBuffer.block =
      ((β.pipes.alloc hint _).cell b).pipeBuffer.block at hab
    rcases List.mem_append.1 ha with ha | ha <;> rcases List.mem_append.1 hb with hb | hb
    · rw [hold a ha, hold b hb] at hab
      exact h.own a ha b hb hab
    · rw [hold a ha, List.mem_singleton.1 hb, hnew] at hab
      exact absurd hab (h.ne_fresh ha)
    · rw [hold b hb, List.mem_singleton.1 ha, hnew] at hab
      exact absurd hab.symm (h.ne_fresh hb)
    · rw [List.mem_singleton.1 ha, List.mem_singleton.1 hb]
  · exact h.faults
  · intro n hn
    change ∃ a ∈ β.pipes.list ++ [β.pipes.fresh hint],
      ((β.pipes.alloc hint _).cell a).pipeBuffer.block = n
    rcases Finset.mem_insert.1 hn with rfl | hn
    · refine ⟨β.pipes.fresh hint, List.mem_append_right _ (List.mem_singleton.2 rfl), ?_⟩
      rw [hnew]
      rfl
    · obtain ⟨a, ha, hn⟩ := h.kept n hn
      refine ⟨a, List.mem_append_left _ ha, ?_⟩
      rw [hold a ha, hn]

theorem pipeInit_iff (h : β.Disciplined) (hint : ℕ) (ok : ℕ → Bool) :
    (β.pipeInit hint ok).2.Disciplined ↔ InitCareful ok := by
  unfold Buffers.pipeInit InitCareful
  split
  · rename_i hfirst
    refine iff_of_true h fun h₀ h₁ => ?_
    simp [h₀, h₁] at hfirst
  rename_i hfirst
  have h₀ : ok 0 = true := by simpa using (not_or.1 hfirst).1
  have h₁ : ok 1 = true := by simpa using (not_or.1 hfirst).2
  rw [forall_prop_of_true h₀, forall_prop_of_true h₁]
  cases ok 2 with
  | false =>
      rw [if_pos (alloc_null_iff.2 rfl)]
      exact iff_of_true h fun h₂ => absurd h₂ (by simp)
  | true =>
      rw [if_neg fun hn => Bool.noConfusion (alloc_null_iff.1 hn), forall_prop_of_true rfl]
      split
      · rename_i h₃
        exact iff_of_false h.not_of_alloc fun hc => absurd (h₃.symm.trans hc.1) (by simp)
      rename_i h₃
      split
      · rename_i h₄
        exact iff_of_false h.not_of_alloc fun hc => absurd (h₄.symm.trans hc.2) (by simp)
      rename_i h₄
      refine iff_of_true ?_ ⟨by simpa using h₃, by simpa using h₄⟩
      have hnew := h.newPipe hint (β.alloc true).2.newId
      dsimp only
      split
      · exact hnew
      · exact hnew.congr rfl (fun _ => rfl) rfl

theorem pipeWrite (h : β.Disciplined) (hb : β.Bounded) (pipeId len : Int) (buf : ℕ → Byte) :
    (β.pipeWrite pipeId len buf).2.Disciplined := by
  unfold Buffers.pipeWrite
  split
  · exact h
  rename_i hneg
  split
  · exact h
  rename_i a hfind
  have ha := Table.mem_of_find? hfind
  have hlen := hb.lens a ha
  have hstart := h.start a ha
  dsimp only
  -- the bytes go behind those that the buffer holds, as many as it has room for
  have hin : ∀ n, (n = if pipeBufSize - (β.pipes.cell a).curLen < len then
      pipeBufSize - (β.pipes.cell a).curLen else len) →
      β.InBlock ((β.pipes.cell a).pipeBuffer.add (β.pipes.cell a).curLen) n := by
    intro n hn
    refine ⟨hstart.2, ?_⟩
    change 0 ≤ (β.pipes.cell a).pipeBuffer.offset + (β.pipes.cell a).curLen ∧ 0 ≤ n ∧
      (β.pipes.cell a).pipeBuffer.offset + (β.pipes.cell a).curLen + n ≤ pipeBufSize
    rw [hstart.1]
    split at hn <;> omega
  obtain ⟨bytes, hcopy⟩ := copyTo_of_inBlock (hin _ rfl) buf
  rw [hcopy]
  refine h.congr rfl ?_ rfl
  intro b
  refine Table.cell_write_congr BufferInfo.pipeBuffer ?_ b
  rfl

/-- The pipe at `a` goes, and its buffer with it. -/
theorem freePipe (h : β.Disciplined) (ha : a ∈ β.pipes.list) :
    ({ β.free (β.pipes.cell a).pipeBuffer with
      pipes := β.pipes.free a } : Buffers).Disciplined := by
  obtain ⟨h₀, hlive⟩ := h.start a ha
  have hheap := h.free h₀ hlive
  rw [h.free_eq h₀ hlive] at hheap ⊢
  have hne : ∀ b ∈ β.pipes.list.erase a, b ≠ a :=
    fun b hb => (β.pipes.nodup.mem_erase_iff.1 hb).1
  constructor
  · exact ⟨hheap.made, hheap.apart, hheap.once⟩
  · intro b hb
    have hmem := List.mem_of_mem_erase hb
    refine ⟨(h.start b hmem).1, Finset.mem_erase.2 ⟨?_, (h.start b hmem).2⟩⟩
    intro he
    exact hne b hb (h.own b hmem a ha he)
  · intro b hb c hc
    exact h.own b (List.mem_of_mem_erase hb) c (List.mem_of_mem_erase hc)
  · exact h.faults
  · intro n hn
    obtain ⟨hna, hn⟩ := Finset.mem_erase.1 hn
    obtain ⟨b, hb, hbuf⟩ := h.kept n hn
    refine ⟨b, (List.mem_erase_of_ne ?_).2 hb, hbuf⟩
    rintro rfl
    exact hna hbuf.symm

theorem reclaim (h : β.Disciplined) (id : Int) : (β.reclaim id).2.Disciplined := by
  have hdestroy : (β.destroyPipeInfo id).2.Disciplined := by
    unfold destroyPipeInfo
    split
    · exact h
    split
    · exact h
    · rename_i a hfind
      have hgone := h.freePipe (Table.mem_of_find? hfind)
      dsimp only
      rw [free_pipes]
      exact hgone
  unfold Buffers.reclaim
  split
  · exact h
  split
  · dsimp only
    split
    · exact hdestroy
    · exact hdestroy.congr rfl (fun _ => rfl) rfl
  · exact h

/-- The pipe at `a` gets a new buffer, and the old one is freed. -/
theorem newBuffer (h : β.Disciplined) (ha : a ∈ β.pipes.list) (bytes : ℕ → ℕ → Byte)
    (id n : Int) :
    ({ ({ (β.alloc true).2 with bytes := bytes } : Buffers).free (β.pipes.cell a).pipeBuffer with
        pipes := β.pipes.write a ⟨id, n, (β.alloc true).1⟩ } : Buffers).Disciplined := by
  obtain ⟨h₀, hlive⟩ := h.start a ha
  have hlive' : (β.pipes.cell a).pipeBuffer.block ∈ (β.alloc true).2.live :=
    Finset.mem_insert_of_mem hlive
  have halloc : ({ (β.alloc true).2 with bytes := bytes } : Buffers).HeapOk :=
    ⟨h.alloc.made, h.alloc.apart, h.alloc.once⟩
  have hheap := halloc.free h₀ hlive'
  rw [halloc.free_eq h₀ hlive'] at hheap ⊢
  have hold : ∀ b, b ≠ a →
      (β.pipes.write a ⟨id, n, (β.alloc true).1⟩).cell b = β.pipes.cell b :=
    fun b hb => Table.cell_write_of_ne hb _
  have hnew := Table.cell_write_self ha (⟨id, n, (β.alloc true).1⟩ : BufferInfo)
  constructor
  · exact ⟨hheap.made, hheap.apart, hheap.once⟩
  · intro b hb
    change ((β.pipes.write a _).cell b).pipeBuffer.offset = 0 ∧
      ((β.pipes.write a _).cell b).pipeBuffer.block ∈
        (insert (β.made + 1) β.live).erase (β.pipes.cell a).pipeBuffer.block
    by_cases hba : b = a
    · subst hba
      rw [hnew]
      exact ⟨rfl, Finset.mem_erase.2 ⟨(h.ne_fresh ha).symm, Finset.mem_insert_self _ _⟩⟩
    · rw [hold b hba]
      refine ⟨(h.start b hb).1, Finset.mem_erase.2 ⟨?_, ?_⟩⟩
      · intro he
        exact hba (h.own b hb a ha he)
      · exact Finset.mem_insert_of_mem (h.start b hb).2
  · intro b hb c hc hbc
    change ((β.pipes.write a _).cell b).pipeBuffer.block =
      ((β.pipes.write a _).cell c).pipeBuffer.block at hbc
    by_cases hba : b = a <;> by_cases hca : c = a
    · rw [hba, hca]
    · rw [hba, hnew, hold c hca] at hbc
      exact absurd hbc.symm (h.ne_fresh hc)
    · rw [hca, hnew, hold b hba] at hbc
      exact absurd hbc (h.ne_fresh hb)
    · rw [hold b hba, hold c hca] at hbc
      exact h.own b hb c hc hbc
  · exact h.faults
  · intro n' hn
    change ∃ b ∈ β.pipes.list, ((β.pipes.write a _).cell b).pipeBuffer.block = n'
    obtain ⟨hne, hn⟩ := Finset.mem_erase.1 hn
    rcases Finset.mem_insert.1 hn with rfl | hn
    · refine ⟨a, ha, ?_⟩
      rw [hnew]
      rfl
    · obtain ⟨b, hb, hbuf⟩ := h.kept n' hn
      refine ⟨b, hb, ?_⟩
      have hba : b ≠ a := by
        rintro rfl
        exact hne hbuf.symm
      rw [hold b hba, hbuf]

end Disciplined

/-! ## A PipeRead that takes bytes -/

/-- Without bytes to take, a PipeRead copies the buffer to a new block and frees the old one. -/
theorem takeBytes_none (h : β.Disciplined) (hb : β.Bounded) (ha : a ∈ β.pipes.list) :
    (β.takeBytes a 0 true).2.Disciplined := by
  obtain ⟨h₀, hlive⟩ := h.start a ha
  obtain ⟨hpos, hle⟩ := hb.lens a ha
  have hout : β.InBlock (β.pipes.cell a).pipeBuffer 0 := by
    refine ⟨hlive, ?_⟩
    rw [h₀]
    exact ⟨le_refl _, le_refl _, by decide⟩
  have htail : (β.alloc true).2.InBlock (β.pipes.cell a).pipeBuffer (β.pipes.cell a).curLen := by
    refine ⟨Finset.mem_insert_of_mem hlive, ?_⟩
    rw [h₀, zero_add]
    exact ⟨le_refl _, hpos, hle⟩
  have htmp : (β.alloc true).2.InBlock (β.alloc true).1 (β.pipes.cell a).curLen := by
    refine ⟨Finset.mem_insert_self _ _, le_refl _, hpos, ?_⟩
    change 0 + (β.pipes.cell a).curLen ≤ pipeBufSize
    rwa [zero_add]
  unfold takeBytes
  dsimp only
  rw [Ptr.add_zero, sub_zero, copyFrom_of_inBlock hout, copyFrom_of_inBlock htail]
  generalize (fun j => ((β.alloc true).2.copyFrom (β.pipes.cell a).pipeBuffer
    (β.pipes.cell a).curLen).1.getD j 0) = src
  obtain ⟨bytes, hcopy⟩ := copyTo_of_inBlock htmp src
  rw [hcopy, free_pipes]
  exact h.newBuffer ha bytes _ _

/-- The discipline survives a PipeRead that takes bytes only if there are none to take and it
gets its new block. -/
theorem takeBytes_iff (h : β.Disciplined) (hb : β.Bounded) (ha : a ∈ β.pipes.list)
    (hlen : 0 ≤ len) : (β.takeBytes a len ok).2.Disciplined ↔ len = 0 ∧ ok = true := by
  constructor
  · intro h'
    have hzero : len = 0 := by
      by_contra hne
      -- what is freed is not the start of the block
      have hmoved : ((β.pipes.cell a).pipeBuffer.add len).offset ≠ 0 := by
        change (β.pipes.cell a).pipeBuffer.offset + len ≠ 0
        rw [(h.start a ha).1]
        omega
      have hfault := h'.faults
      change (Buffers.free _ ((β.pipes.cell a).pipeBuffer.add len)).faults = 0 at hfault
      rw [faults_free_of_moved hmoved] at hfault
      exact absurd hfault (Nat.succ_ne_zero _)
    subst hzero
    refine ⟨rfl, ?_⟩
    by_contra hok
    obtain rfl : ok = false := by simpa using hok
    -- the pipe is left with a buffer that is `NULL`
    have hcell : ((β.takeBytes a 0 false).2.pipes.cell a).pipeBuffer = .null := by
      unfold takeBytes
      simp [copyFrom, copyTo, Table.cell_write_self ha, alloc]
    have hsub : (β.takeBytes a 0 false).2.live ⊆ β.live := by
      change (Buffers.free _ _).live ⊆ _
      apply free_live_subset.trans
      simp [copyFrom, copyTo, alloc]
    have ha' : a ∈ (β.takeBytes a 0 false).2.pipes.list := by
      unfold takeBytes
      simp [copyFrom, copyTo, ha]
    have hbuf := (h'.start a ha').2
    rw [hcell] at hbuf
    exact absurd (h.pos (hsub hbuf)) (by simp [Ptr.null])
  · rintro ⟨rfl, rfl⟩
    exact takeBytes_none h hb ha

theorem pipeReadLoop_iff (h : β.Disciplined) (hb : β.Bounded) (r : PipeReader)
    (hlen : 0 ≤ r.len) : (β.pipeReadLoop r ok).2.Disciplined ↔ β.LoopCareful r ok := by
  unfold pipeReadLoop LoopCareful
  by_cases ha : r.p ∈ β.pipes.list
  · rw [if_pos ha, and_iff_right ha]
    by_cases hless : (β.pipes.cell r.p).curLen < r.len
    · rw [if_pos hless]
      exact iff_of_true (h.congr rfl (fun _ => rfl) rfl) (.inl hless)
    · rw [if_neg hless, or_iff_right hless]
      exact takeBytes_iff h hb ha hlen
  · rw [if_neg ha]
    refine iff_of_false ?_ fun hc => ha hc.1
    intro h'
    exact absurd h'.faults (Nat.succ_ne_zero _)

theorem pipeRead_iff (h : β.Disciplined) (hb : β.Bounded) (pipeId len : Int) (ok : Bool) :
    (β.pipeRead pipeId len ok).2.Disciplined ↔ β.Careful (.read pipeId len ok) := by
  unfold pipeRead
  by_cases hneg : pipeId < 0 ∨ len < 0
  · rw [if_pos hneg]
    refine iff_of_true h ?_
    intro h₁ h₂
    omega
  rw [if_neg hneg]
  have hlen : 0 ≤ len := by omega
  cases hfind : β.pipes.find? fun p => p.pipeid = pipeId with
  | none =>
      refine iff_of_true h ?_
      intro _ _ a ha
      simp [hfind] at ha
  | some a =>
      refine (pipeReadLoop_iff h hb ⟨a, pipeId, len, false⟩ hlen).trans ?_
      constructor
      · intro hc _ _ b hfb
        obtain rfl := Option.some.inj (hfind.symm.trans hfb)
        exact hc
      · intro hc
        exact hc (by omega) hlen a hfind

theorem pipeReadAgain_iff (h : β.Disciplined) (hb : β.Bounded) (hlen : 0 ≤ r.len) :
    (β.pipeReadAgain r ok).2.Disciplined ↔
      ((r.exist || β.pipes.any fun p1 => p1.pipeid = r.pipeId) = true → β.LoopCareful r ok) := by
  have hloop : ∀ exist, (β.pipeReadLoop { r with exist := exist } ok).2.Disciplined ↔
      β.LoopCareful r ok :=
    fun exist => pipeReadLoop_iff h hb ⟨r.p, r.pipeId, r.len, exist⟩ hlen
  unfold pipeReadAgain
  dsimp only
  split
  · rename_i hexist
    rw [hloop]
    exact ⟨fun hc _ => hc, fun hc => hc hexist⟩
  · rename_i hexist
    exact iff_of_true h fun he => absurd he hexist

/-! ## Lengths -/

namespace Bounded

theorem congr (hb : β.Bounded) (hpipes : β'.pipes = β.pipes) (hreaders : β'.readers = β.readers) :
    β'.Bounded := by
  constructor
  · rw [hpipes]
    exact hb.lens
  · rw [hreaders]
    exact hb.readers

/-- A pipe gets a new record. -/
theorem write (hb : β.Bounded) {x : BufferInfo} (hx : 0 ≤ x.curLen ∧ x.curLen ≤ pipeBufSize)
    (hpipes : β'.pipes = β.pipes.write a x) (hreaders : β'.readers = β.readers) : β'.Bounded := by
  constructor
  · intro b hmem
    rw [hpipes] at hmem ⊢
    by_cases hba : b = a
    · subst hba
      rw [Table.cell_write_self (t := β.pipes) hmem]
      exact hx
    · rw [Table.cell_write_of_ne hba]
      exact hb.lens b hmem
  · rw [hreaders]
    exact hb.readers

theorem alloc (hb : β.Bounded) {x : BufferInfo} (hx : 0 ≤ x.curLen ∧ x.curLen ≤ pipeBufSize)
    (hpipes : β'.pipes = β.pipes.alloc hint x) (hreaders : β'.readers = β.readers) :
    β'.Bounded := by
  constructor
  · intro b hmem
    rw [hpipes] at hmem ⊢
    rcases List.mem_append.1 hmem with hmem | hmem
    · rw [Table.cell_alloc_of_mem hmem]
      exact hb.lens b hmem
    · rw [List.mem_singleton.1 hmem, Table.cell_alloc_self]
      exact hx
  · rw [hreaders]
    exact hb.readers

theorem pipeInit (hb : β.Bounded) (hint : ℕ) (ok : ℕ → Bool) :
    (β.pipeInit hint ok).2.Bounded := by
  have halloc : (β.alloc (ok 2)).2.Bounded := hb.congr alloc_pipes alloc_readers
  have hnew : ∀ x : BufferInfo, x.curLen = 0 → ∀ l, ({ (β.alloc (ok 2)).2 with
      pipes := (β.alloc (ok 2)).2.pipes.alloc hint x, reclaimList := l } : Buffers).Bounded := by
    intro x hx l
    refine halloc.alloc ?_ rfl rfl
    rw [hx]
    exact ⟨le_refl _, by decide⟩
  unfold Buffers.pipeInit
  dsimp only
  split_ifs
  · exact hb
  · exact halloc
  · exact halloc.congr rfl rfl
  · exact halloc.congr rfl rfl
  · exact hnew _ rfl _
  · exact hnew _ rfl _

theorem pipeWrite (hb : β.Bounded) (pipeId len : Int) (buf : ℕ → Byte) :
    (β.pipeWrite pipeId len buf).2.Bounded := by
  unfold Buffers.pipeWrite
  split
  · exact hb
  split
  · exact hb
  rename_i hneg a hfind
  have hlen := hb.lens a (Table.mem_of_find? hfind)
  have hpipes : ∀ n, (β.copyTo ((β.pipes.cell a).pipeBuffer.add (β.pipes.cell a).curLen) n
      buf).pipes = β.pipes := fun _ => access_pipes
  have hreaders : ∀ n, (β.copyTo ((β.pipes.cell a).pipeBuffer.add (β.pipes.cell a).curLen) n
      buf).readers = β.readers := fun _ => access_readers
  dsimp only
  rw [hpipes]
  refine hb.write ?_ rfl (hreaders _)
  dsimp only
  split <;> omega

theorem takeBytes (hb : β.Bounded) (ha : a ∈ β.pipes.list) (hlen : 0 ≤ len)
    (hle : len ≤ (β.pipes.cell a).curLen) : (β.takeBytes a len ok).2.Bounded := by
  have hbounds := hb.lens a ha
  have hpipes : (β.takeBytes a len ok).2.pipes = β.pipes.write a
      ⟨(β.pipes.cell a).pipeid, (β.pipes.cell a).curLen - len,
        ((β.copyFrom (β.pipes.cell a).pipeBuffer len).2.alloc ok).1⟩ := by
    unfold Buffers.takeBytes
    simp [copyFrom, copyTo]
  refine hb.write ?_ hpipes ?_
  · dsimp only
    omega
  · unfold Buffers.takeBytes
    simp [copyFrom, copyTo]

theorem pipeReadLoop (hb : β.Bounded) (hlen : 0 ≤ r.len) : (β.pipeReadLoop r ok).2.Bounded := by
  unfold Buffers.pipeReadLoop
  split_ifs with ha hless
  · constructor
    · exact hb.lens
    · intro r' hr
      rcases List.mem_append.1 hr with hr | hr
      · exact hb.readers r' hr
      · rw [List.mem_singleton.1 hr]
        exact hlen
  · exact hb.takeBytes ha hlen (by omega)
  · exact hb.congr rfl rfl

theorem reclaim (hb : β.Bounded) (id : Int) : (β.reclaim id).2.Bounded := by
  have hdestroy : (β.destroyPipeInfo id).2.Bounded := by
    unfold destroyPipeInfo
    split
    · exact hb
    split
    · exact hb
    · constructor
      · intro b hmem
        dsimp only at hmem ⊢
        rw [free_pipes] at hmem ⊢
        exact hb.lens b (List.mem_of_mem_erase hmem)
      · dsimp only
        rw [free_readers]
        exact hb.readers
  unfold Buffers.reclaim
  split
  · exact hb
  split
  · dsimp only
    split
    · exact hdestroy
    · exact hdestroy.congr rfl rfl
  · exact hb

theorem step (hb : β.Bounded) (h : β.step op = some β') : β'.Bounded := by
  obtain ⟨x, hx, rfl⟩ := Option.map_eq_some_iff.1 h
  cases op with
  | init hint ok =>
      obtain rfl := Option.some.inj hx
      exact hb.pipeInit hint ok
  | write pipeId len buf =>
      obtain rfl := Option.some.inj hx
      exact hb.pipeWrite pipeId len buf
  | read pipeId len ok =>
      obtain rfl := Option.some.inj hx
      unfold pipeRead
      split
      · exact hb
      split
      · exact hb
      · exact hb.pipeReadLoop (by dsimp only; omega)
  | again i ok =>
      obtain ⟨r, hr, rfl⟩ := Option.map_eq_some_iff.1 hx
      have hrest : ({ β with readers := β.readers.eraseIdx i } : Buffers).Bounded :=
        ⟨hb.lens, fun r' hr' => hb.readers r' (List.mem_of_mem_eraseIdx hr')⟩
      unfold pipeReadAgain
      dsimp only
      split
      · exact hrest.pipeReadLoop (hb.readers r (List.mem_of_getElem? hr))
      · exact hrest
  | reclaim id =>
      obtain rfl := Option.some.inj hx
      exact hb.reclaim id

end Bounded

/-! ## Runs -/

/-- One call keeps the discipline if and only if it is careful. -/
theorem step_iff (h : β.Disciplined) (hb : β.Bounded) (hs : β.step op = some β') :
    β'.Disciplined ↔ β.Careful op := by
  obtain ⟨x, hx, rfl⟩ := Option.map_eq_some_iff.1 hs
  cases op with
  | init hint ok =>
      obtain rfl := Option.some.inj hx
      exact h.pipeInit_iff hint ok
  | write pipeId len buf =>
      obtain rfl := Option.some.inj hx
      exact iff_of_true (h.pipeWrite hb pipeId len buf) trivial
  | read pipeId len ok =>
      obtain rfl := Option.some.inj hx
      exact pipeRead_iff h hb pipeId len ok
  | again i ok =>
      obtain ⟨r, hr, rfl⟩ := Option.map_eq_some_iff.1 hx
      have hrest : ({ β with readers := β.readers.eraseIdx i } : Buffers).Disciplined :=
        h.congr rfl (fun _ => rfl) rfl
      have hrestb : ({ β with readers := β.readers.eraseIdx i } : Buffers).Bounded :=
        ⟨hb.lens, fun r' hr' => hb.readers r' (List.mem_of_mem_eraseIdx hr')⟩
      refine (pipeReadAgain_iff hrest hrestb
        (hb.readers r (List.mem_of_getElem? hr))).trans ?_
      constructor
      · intro hc r' hr'
        obtain rfl := Option.some.inj (hr.symm.trans hr')
        exact hc
      · intro hc
        exact hc r hr
  | reclaim id =>
      obtain rfl := Option.some.inj hx
      exact iff_of_true (h.reclaim id) trivial

theorem boot_disciplined (bytes : ℕ → ℕ → Byte) : (boot bytes).Disciplined := by
  constructor
  · constructor
    · intro n
      simp [boot]
      omega
    · simp [boot]
    · exact List.nodup_nil
  · intro a ha
    exact absurd ha List.not_mem_nil
  · intro a ha
    exact absurd ha List.not_mem_nil
  · rfl
  · intro n hn
    exact absurd hn (Finset.notMem_empty n)

theorem boot_bounded (bytes : ℕ → ℕ → Byte) : (boot bytes).Bounded := by
  constructor
  · intro a ha
    exact absurd ha List.not_mem_nil
  · intro r hr
    exact absurd hr List.not_mem_nil

variable {C : Buffers → PipeOp → Buffers → Prop} {bytes : ℕ → ℕ → Byte}
  {tr : List (Move Buffers PipeOp)}

/-- In every run from an empty heap the discipline is kept throughout if and only if all calls
are careful. -/
theorem run_discipline (h : Run step C (boot bytes) tr β) :
    (∀ m ∈ tr, m.after.Disciplined) ↔ ∀ m ∈ tr, m.before.Careful m.label := by
  -- a run that has kept the discipline so far is still in a state that keeps it
  have hI : β.Bounded ∧ ((∀ m ∈ tr, m.after.Disciplined) → β.Disciplined) ∧
      ((∀ m ∈ tr, m.after.Disciplined) ↔ ∀ m ∈ tr, m.before.Careful m.label) := by
    refine h.history (I := fun tr β => β.Bounded ∧
      ((∀ m ∈ tr, m.after.Disciplined) → β.Disciplined) ∧
      ((∀ m ∈ tr, m.after.Disciplined) ↔ ∀ m ∈ tr, m.before.Careful m.label)) ?_ ?_
    · exact ⟨boot_bounded bytes, fun _ => boot_disciplined bytes, by simp⟩
    · rintro tr β op β' ⟨hb, hnow, hall⟩ hs -
      refine ⟨hb.step hs, ?_, ?_⟩
      · intro hd
        exact hd ⟨β, op, β'⟩ (List.mem_append_right _ (List.mem_singleton.2 rfl))
      · simp only [List.mem_append, List.mem_singleton, or_imp, forall_and, forall_eq]
        rw [← hall]
        exact and_congr_right fun hd => step_iff (hnow hd) hb hs
  exact hI.2.2

/-- Two bytes of a program. -/
def someBytes : ℕ → Byte := fun j => if j = 0 then 104 else 105

/-- A pipe that gets two bytes, is read for none and is reclaimed. -/
def emptyRead : List PipeOp :=
  [.init 8 fun _ => true, .write 1 2 someBytes, .read 1 0 true, .reclaim 1]

/-- The same with a PipeRead of one byte. -/
def oneByteRead : List PipeOp :=
  [.init 8 fun _ => true, .write 1 2 someBytes, .read 1 1 true]

/-- The theorem on a run that keeps the discipline. -/
theorem run_discipline_empty_read : ∃ tr β,
    Run step (fun β op _ => β.Careful op) (boot fun _ _ => 0) tr β ∧
    tr.map Move.label = emptyRead ∧ ∀ m ∈ tr, m.after.Disciplined := by
  have hrun : (exec step (fun β op _ => β.Careful op) (boot fun _ _ => 0) emptyRead).isSome =
      true := by
    decide
  obtain ⟨β, hβ⟩ := Option.isSome_iff_exists.1 hrun
  obtain ⟨tr, hr, hls⟩ := exec_run hβ
  refine ⟨tr, β, hr, hls, (run_discipline hr).2 ?_⟩
  intro m hm
  obtain ⟨-, -, -, hcareful⟩ := hr.reaches_before hm
  exact hcareful

/-- A PipeRead of one byte frees `pipe_buffer` behind its start, and the block stays allocated,
though the pipe has another. -/
theorem one_byte_read_undisciplined : ∃ tr β,
    Run step (fun _ _ _ => True) (boot fun _ _ => 0) tr β ∧ tr.map Move.label = oneByteRead ∧
    β.faults = 1 ∧ 1 ∈ β.live ∧ (∀ a ∈ β.pipes.list, (β.pipes.cell a).pipeBuffer.block = 2) ∧
    ¬β.Disciplined := by
  have hrun : ((exec step (fun _ _ _ => True) (boot fun _ _ => 0) oneByteRead).map fun β =>
      decide (β.faults = 1 ∧ 1 ∈ β.live ∧
        ∀ a ∈ β.pipes.list, (β.pipes.cell a).pipeBuffer.block = 2)) = some true := by
    decide
  obtain ⟨β, hβ, hP⟩ := Option.map_eq_some_iff.1 hrun
  obtain ⟨tr, hr, hls⟩ := exec_run hβ
  obtain ⟨hfaults, hlive, hbuf⟩ := of_decide_eq_true hP
  refine ⟨tr, β, hr, hls, hfaults, hlive, hbuf, ?_⟩
  intro hd
  exact absurd (hd.faults.symm.trans hfaults) (by simp)

end Yalnix.Buffers
