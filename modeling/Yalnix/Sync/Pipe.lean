import Yalnix.Placement.Context

/-!
# What a step does to a pipe

`PipeStep σ σ' l a` has one case for each thing that can happen to the pipe at `a` in a
step: nothing, its creation, a reader that queues up, a read and a write. A read and a
write wake the first waiting process.
-/

namespace Yalnix

open Transition

namespace Kernel

variable {σ σ' : Kernel} {l : Label} {p : Pid} {o : Outcome} {a : ℕ}

/-! ## Calls on a pipe -/

/-- The pipe, buffer and length of the PipeRead that a step makes or continues. -/
def readAt (σ : Kernel) (l : Label) : Option (ℕ × Word × Int) :=
  match l.event with
  | .trap u =>
      if l.call = some .pipeRead then
        (σ.pipes.find? fun x => x.pipeid = (u.regs 0).toInt).map fun a =>
          (a, u.regs 1, (u.regs 2).toInt)
      else none
  | .resume => σ.activeProc.bind fun p =>
      match (σ.pcb p).kctxt with
      | .pipeRead a _ buf len _ => some (a, buf, len)
      | _ => none
  | .store _ _ => none

/-- The pipe, buffer and length of the PipeWrite that a step makes. -/
def writeAt (σ : Kernel) (l : Label) : Option (ℕ × Word × Int) :=
  match l.event with
  | .trap u =>
      if l.call = some .pipeWrite then
        (σ.pipes.find? fun x => x.pipeid = (u.regs 0).toInt).map fun a =>
          (a, u.regs 1, (u.regs 2).toInt)
      else none
  | _ => none

/-- The bytes of the pipe at `a` that a step delivers: those of a PipeRead that returns
0. -/
def delivered (σ : Kernel) (l : Label) (a : ℕ) : List Byte :=
  match σ.readAt l with
  | some (a', _, len) =>
      if a' = a ∧ σ.outcome l = some (.ret 0) then
        (List.range len.toNat).map (σ.pipes.cell a).pipeBuffer
      else []
  | none => []

/-- The bytes that the pipe at `a` accepts in a step: the leading ones of the buffer of
a PipeWrite, as many as it returns. -/
def accepted (σ : Kernel) (l : Label) (a : ℕ) : List Byte :=
  match σ.writeAt l, σ.outcome l with
  | some (a', buf, _), some (.ret n) =>
      if a' = a then (σ.copyIn buf n.toNat).getD [] else []
  | _, _ => []

/-- No PipeRead on the pipe at `a` returns 0 in this step. -/
def ReadsNone (σ : Kernel) (l : Label) (a : ℕ) : Prop :=
  ∀ buf n, σ.readAt l = some (a, buf, n) → σ.outcome l ≠ some (.ret 0)

/-- The arguments of a PipeWrite on the pipe at `a` that the call does not take. -/
def RefusesWrite (σ : Kernel) (a : ℕ) (buf : Word) (len : Int) : Prop :=
  (∃ p, σ.activeProc = some p ∧ σ.badPointer p buf = true) ∨ (σ.pipes.cell a).pipeid < 0 ∨ len < 0

/-- No PipeWrite on the pipe at `a` succeeds in this step: what one asks for is refused. -/
def WritesNone (σ : Kernel) (l : Label) (a : ℕ) : Prop :=
  ∀ buf n v, σ.writeAt l = some (a, buf, n) → σ.outcome l = some (.ret v) →
    v = error ∧ σ.RefusesWrite a buf n

theorem ReadsNone.delivered (h : σ.ReadsNone l a) : σ.delivered l a = [] := by
  unfold Kernel.delivered
  split
  · rename_i hr
    refine if_neg fun hc => ?_
    obtain ⟨rfl, ho⟩ := hc
    exact h _ _ hr ho
  · rfl

theorem WritesNone.accepted (h : σ.WritesNone l a) : σ.accepted l a = [] := by
  unfold Kernel.accepted
  split
  · rename_i hw ho
    split
    · rename_i ha
      subst ha
      rw [(h _ _ _ hw ho).1]
      rfl
    · rfl
  · rfl

/-- What a PipeWrite of `bytes` makes of the buffer of a pipe. -/
def fill (x : PipeInfo) (bytes : List Byte) (j : ℕ) : Byte :=
  if x.curLen.toNat ≤ j then (bytes[j - x.curLen.toNat]?).getD (x.pipeBuffer j)
  else x.pipeBuffer j

/-- The things that a step can do to the pipe at `a`. Of a `calm` step it is also known who
queues up and who has been woken. -/
inductive PipeStep (calm : Prop) (σ σ' : Kernel) (l : Label) (a : ℕ) : Prop
  | same (ha : a ∈ σ.pipes.list) (hd : σ.ReadsNone l a) (hw : σ.WritesNone l a)
      (hcell : σ'.pipes.cell a = σ.pipes.cell a)
  | fresh (ha : a ∉ σ.pipes.list) (x : Int) (hcell : σ'.pipes.cell a = ⟨x, 0, fun _ => 0, []⟩)
  | queued {w : List Pid} (ha : a ∈ σ.pipes.list) (hd : σ.ReadsNone l a)
      (hw : σ.WritesNone l a)
      (hsleep : calm → ∃ p x buf n e, σ.activeProc = some p ∧ (σ.pipes.cell a).curLen < n ∧
        (σ'.pcb p).kctxt = .pipeRead a x buf n e ∧ (e = true ∨ x = (σ.pipes.cell a).pipeid) ∧
        w = (σ.pipes.cell a).pipeWaitList ++ [p])
      (hcell : σ'.pipes.cell a = { σ.pipes.cell a with pipeWaitList := w })
  | read {buf : Word} {n : Int} (ha : a ∈ σ.pipes.list) (hr : σ.readAt l = some (a, buf, n))
      (hw : σ.WritesNone l a) (ho : σ.outcome l = some (.ret 0))
      (hle : n ≤ (σ.pipes.cell a).curLen)
      (hcopy : ∃ τ, (σ.callState l).copyOut buf (σ.delivered l a) = some τ ∧
        σ'.phys = τ.phys)
      (hwake : calm → ∀ q ∈ (σ.pipes.cell a).pipeWaitList.head?, q ∈ σ'.readyQueue)
      (hcell : σ'.pipes.cell a = { σ.pipes.cell a with
        curLen := (σ.pipes.cell a).curLen - n
        pipeBuffer := fun j => (σ.pipes.cell a).pipeBuffer (n.toNat + j)
        pipeWaitList := (σ.pipes.cell a).pipeWaitList.tail })
  | write {buf : Word} {len : Int} {bytes : List Byte} (ha : a ∈ σ.pipes.list)
      (hd : σ.ReadsNone l a) (hw : σ.writeAt l = some (a, buf, len)) (hlen : 0 ≤ len)
      (ho : σ.outcome l = some (.ret (min len (pipeBufSize - (σ.pipes.cell a).curLen))))
      (hbytes : σ.copyIn buf (min len (pipeBufSize - (σ.pipes.cell a).curLen)).toNat = some bytes)
      (hwake : calm → ∀ q ∈ (σ.pipes.cell a).pipeWaitList.head?, q ∈ σ'.readyQueue)
      (hcell : σ'.pipes.cell a = { σ.pipes.cell a with
        curLen := (σ.pipes.cell a).curLen + min len (pipeBufSize - (σ.pipes.cell a).curLen)
        pipeBuffer := fill (σ.pipes.cell a) bytes
        pipeWaitList := (σ.pipes.cell a).pipeWaitList.tail })

/-! ## The parts of the calls -/

/-- The first waiting process is taken out of the list and becomes ready. -/
theorem wakePipe_cases (σ : Kernel) (a : ℕ) :
    (σ.wakePipe a).pipes = σ.pipes.write a { σ.pipes.cell a with
      pipeWaitList := (σ.pipes.cell a).pipeWaitList.tail } ∧
    (σ.mem.AllOk →
      ∀ q ∈ (σ.pipes.cell a).pipeWaitList.head?, q ∈ (σ.wakePipe a).readyQueue) := by
  unfold wakePipe
  dsimp only
  cases hl : (σ.pipes.cell a).pipeWaitList with
  | nil =>
      rw [listRemove_nil]
      refine ⟨?_, by simp⟩
      dsimp only [List.tail_nil]
      rw [← hl]
      exact (Table.write_self _ a).symm
  | cons q rest =>
      rw [listRemove_cons_one]
      refine ⟨rfl, fun hok => ?_⟩
      dsimp only
      rw [readyInsert_ok (by exact hok)]
      simp

theorem takeBytes_cases (ha : a ∈ σ.pipes.list) {buf : Word} {n : Int}
    (h : σ.takeBytes a buf n = some (o, σ')) : o = .ret 0 ∧
      (∃ τ, σ.copyOut buf ((List.range n.toNat).map (σ.pipes.cell a).pipeBuffer) = some τ ∧
        σ'.phys = τ.phys) ∧
      (σ.mem.AllOk → ∀ q ∈ (σ.pipes.cell a).pipeWaitList.head?, q ∈ σ'.readyQueue) ∧
      σ'.pipes = σ.pipes.write a { σ.pipes.cell a with
        curLen := (σ.pipes.cell a).curLen - n
        pipeBuffer := fun j => (σ.pipes.cell a).pipeBuffer (n.toNat + j)
        pipeWaitList := (σ.pipes.cell a).pipeWaitList.tail } := by
  unfold takeBytes at h
  obtain ⟨τ, hτ, h⟩ := Option.bind_eq_some_iff.1 h
  dsimp only at h
  split at h
  swap
  · exact absurd h (by simp)
  obtain ⟨rfl, rfl⟩ := Prod.mk.inj (Option.some.inj h)
  have hpipes : τ.malloc.2.pipes = σ.pipes := (copyOut_touches hτ).same .pipes (by simp)
  have hallok : σ.mem.AllOk → τ.malloc.2.mem.AllOk :=
    ((copyOut_touches hτ).seq (malloc_touches τ)).allOk (by simp)
  obtain ⟨hwrite, hwake⟩ := wakePipe_cases { τ.malloc.2 with
    pipes := τ.malloc.2.pipes.write a { σ.pipes.cell a with
      curLen := (σ.pipes.cell a).curLen - n
      pipeBuffer := fun j => (σ.pipes.cell a).pipeBuffer (n.toNat + j) } } a
  dsimp only at hwrite hwake
  rw [hpipes] at hwrite hwake
  rw [Table.cell_write_self ha] at hwrite hwake
  rw [Table.write_write] at hwrite
  refine ⟨rfl, ⟨τ, hτ, ?_⟩, ?_, ?_⟩
  · unfold wakePipe
    dsimp only
    split <;> rfl
  · rw [hpipes]
    exact fun hok => hwake (hallok hok)
  · rw [hpipes]
    exact hwrite

/-- A turn of `sys_PipeRead` queues up when there are too few bytes, and takes them
otherwise. -/
theorem pipeReadLoop_cases {x : Int} {buf : Word} {n : Int} {e : Bool}
    (h : σ.pipeReadLoop p a x buf n e = some (o, σ')) : a ∈ σ.pipes.list ∧
      (((σ.pipes.cell a).curLen < n ∧ o ≠ .ret 0 ∧
          ∃ w, σ'.pipes = σ.pipes.write a { σ.pipes.cell a with pipeWaitList := w } ∧
            (σ.Calling p → (σ'.pcb p).kctxt = .pipeRead a x buf n e ∧
              w = (σ.pipes.cell a).pipeWaitList ++ [p])) ∨
        (n ≤ (σ.pipes.cell a).curLen ∧ σ.takeBytes a buf n = some (o, σ'))) := by
  unfold pipeReadLoop at h
  split at h
  swap
  · exact absurd h (by simp)
  rename_i ha
  refine ⟨ha, ?_⟩
  split at h
  · rename_i hless
    have htouch : Touches [.queues, .contexts, .users] (σ.pipeWaitInsert a p) σ' :=
      block_touches (by simp) (fun _ _ _ _ hf => absurd hf (by simp)) h
    have hpipes : σ'.pipes = (σ.pipeWaitInsert a p).pipes := htouch.same .pipes (by simp)
    refine .inl ⟨hless, ?_, _, hpipes, fun hcall => ?_⟩
    · rintro rfl
      obtain ⟨⟨s, τ⟩, -, h⟩ := Option.bind_eq_some_iff.1 h
      cases s with
      | switched => simp at h
      | returned rc =>
          dsimp only at h
          split at h
          · simp [error] at h
          · simp at h
    · obtain ⟨-, -, hk⟩ := hcall.sleeps (.pipeWaitInsert hcall.ok ha p) h
      refine ⟨hk, ?_⟩
      rw [listInsert_last_ok _ _ hcall.ok]
  · rename_i hless
    exact .inr ⟨not_lt.1 hless, h⟩

/-- A PipeWrite that is refused, or that does not find its pipe, has no effect, and any other
appends what fits. -/
theorem sysPipeWrite_cases (h : σ.sysPipeWrite p = some (o, σ')) :
    (o = .ret error ∧ σ' = σ ∧ ∀ a, σ.pipes.find? (fun x => x.pipeid = (σ.reg 0).toInt) = some a →
      σ.badPointer p (σ.reg 1) = true ∨ (σ.reg 0).toInt < 0 ∨ (σ.reg 2).toInt < 0) ∨
      ∃ a len bytes, σ.pipes.find? (fun x => x.pipeid = (σ.reg 0).toInt) = some a ∧
        len = (σ.reg 2).toInt ∧ 0 ≤ len ∧
        o = .ret (min len (pipeBufSize - (σ.pipes.cell a).curLen)) ∧
        σ.copyIn (σ.reg 1) (min len (pipeBufSize - (σ.pipes.cell a).curLen)).toNat =
          some bytes ∧
        (σ.mem.AllOk → ∀ q ∈ (σ.pipes.cell a).pipeWaitList.head?, q ∈ σ'.readyQueue) ∧
        σ'.pipes = σ.pipes.write a { σ.pipes.cell a with
          curLen := (σ.pipes.cell a).curLen + min len (pipeBufSize - (σ.pipes.cell a).curLen)
          pipeBuffer := fill (σ.pipes.cell a) bytes
          pipeWaitList := (σ.pipes.cell a).pipeWaitList.tail } := by
  unfold sysPipeWrite at h
  dsimp only at h
  split at h
  · rename_i hbad
    obtain ⟨rfl, rfl⟩ := Prod.mk.inj (Option.some.inj h)
    exact .inl ⟨rfl, rfl, fun _ _ => .inl hbad⟩
  split at h
  · rename_i hid
    obtain ⟨rfl, rfl⟩ := Prod.mk.inj (Option.some.inj h)
    exact .inl ⟨rfl, rfl, fun _ _ => .inr (.inl hid)⟩
  split at h
  · rename_i hlen
    obtain ⟨rfl, rfl⟩ := Prod.mk.inj (Option.some.inj h)
    exact .inl ⟨rfl, rfl, fun _ _ => .inr (.inr hlen)⟩
  rename_i hlen
  split at h
  · rename_i hnone
    obtain ⟨rfl, rfl⟩ := Prod.mk.inj (Option.some.inj h)
    exact .inl ⟨rfl, rfl, fun a ha => absurd (hnone.symm.trans ha) (by simp)⟩
  rename_i a hfind
  have ha := Table.mem_of_find? hfind
  have hmin : ∀ n r : Int, (if r < n then r else n) = min n r := fun n r => by
    split <;> omega
  rw [hmin] at h
  obtain ⟨bytes, hbytes, h⟩ := Option.map_eq_some_iff.1 h
  obtain ⟨rfl, rfl⟩ := Prod.mk.inj h
  obtain ⟨hwrite, hwake⟩ := wakePipe_cases { σ with
    pipes := σ.pipes.write a { σ.pipes.cell a with
      curLen := (σ.pipes.cell a).curLen +
        min (σ.reg 2).toInt (pipeBufSize - (σ.pipes.cell a).curLen)
      pipeBuffer := fill (σ.pipes.cell a) bytes } } a
  dsimp only at hwrite hwake
  rw [Table.cell_write_self ha] at hwrite hwake
  rw [Table.write_write] at hwrite
  exact .inr ⟨a, _, bytes, hfind, rfl, not_lt.1 hlen, rfl, hbytes, hwake, hwrite⟩

theorem sysPipeInit_pipes (h : σ.sysPipeInit p = some (o, σ')) :
    (∃ hint x, σ'.pipes = σ.pipes.alloc hint ⟨x, 0, fun _ => 0, []⟩) ∨ σ'.pipes = σ.pipes := by
  unfold sysPipeInit at h
  dsimp only at h
  split at h
  · obtain ⟨-, rfl⟩ := Prod.mk.inj (Option.some.inj h)
    exact .inr rfl
  split at h
  · obtain ⟨-, rfl⟩ := Prod.mk.inj (Option.some.inj h)
    exact .inr rfl
  split at h
  · obtain ⟨-, rfl⟩ := Prod.mk.inj (Option.some.inj h)
    exact .inr rfl
  obtain ⟨τ, hτ, h⟩ := Option.bind_eq_some_iff.1 h
  have hpipes : τ.pipes = σ.pipes := (storeInt_touches hτ).same .pipes (by simp)
  split at h
  · obtain ⟨-, rfl⟩ := Prod.mk.inj (Option.some.inj h)
    exact .inr hpipes
  have halloc : τ.malloc.2.pipes.alloc σ.malloc.1.addr ⟨τ.newId, 0, fun _ => 0, []⟩ =
      σ.pipes.alloc σ.malloc.1.addr ⟨τ.newId, 0, fun _ => 0, []⟩ :=
    congrArg (fun t : Table PipeInfo => t.alloc _ _) hpipes
  split at h
  · obtain ⟨-, rfl⟩ := Prod.mk.inj (Option.some.inj h)
    exact .inl ⟨_, _, halloc⟩
  · obtain ⟨-, rfl⟩ := Prod.mk.inj (Option.some.inj h)
    exact .inl ⟨_, _, halloc⟩

/-! ## A whole step -/

theorem copyIn_congr {τ : Kernel} (ht : τ.translate protRead = σ.translate protRead)
    (hphys : τ.phys = σ.phys) (buf : Word) (n : ℕ) : τ.copyIn buf n = σ.copyIn buf n := by
  induction n generalizing buf with
  | zero => rfl
  | succ n ih =>
      unfold copyIn loadByte
      rw [ht, hphys, ih]

theorem finish_pipes (o : Outcome) (τ : Kernel) : (finish (o, τ)).pipes = τ.pipes :=
  (finish_touches o τ).same .pipes (by simp)

theorem readAt_of_call {u : UserContext} {c : Call} (hl : l.event = .trap u)
    (hc : l.call = some c) : σ.readAt l = if c = .pipeRead then
      (σ.pipes.find? fun x => x.pipeid = (u.regs 0).toInt).map fun a =>
        (a, u.regs 1, (u.regs 2).toInt) else none := by
  simp [readAt, hl, hc]

theorem writeAt_of_call {u : UserContext} {c : Call} (hl : l.event = .trap u)
    (hc : l.call = some c) : σ.writeAt l = if c = .pipeWrite then
      (σ.pipes.find? fun x => x.pipeid = (u.regs 0).toInt).map fun a =>
        (a, u.regs 1, (u.regs 2).toInt) else none := by
  simp [writeAt, hl, hc]

theorem ReadsNone.of_readAt (h : σ.readAt l = none) (a : ℕ) : σ.ReadsNone l a := by
  intro buf n hr
  simp [h] at hr

theorem ReadsNone.of_outcome (h : σ.outcome l ≠ some (.ret 0)) (a : ℕ) : σ.ReadsNone l a :=
  fun _ _ _ => h

theorem ReadsNone.of_ne {b : ℕ} {buf : Word} {n : Int} (h : σ.readAt l = some (b, buf, n))
    (hb : a ≠ b) : σ.ReadsNone l a := by
  intro buf' n' hr
  rw [h] at hr
  exact absurd (Prod.mk.inj (Option.some.inj hr)).1.symm hb

theorem WritesNone.of_writeAt (h : σ.writeAt l = none) (a : ℕ) : σ.WritesNone l a := by
  intro buf n v hw
  simp [h] at hw

theorem WritesNone.of_error (h : σ.outcome l = some (.ret error))
    (href : ∀ buf n, σ.writeAt l = some (a, buf, n) → σ.RefusesWrite a buf n) :
    σ.WritesNone l a := by
  intro buf n v hw ho
  rw [h] at ho
  exact ⟨(Outcome.ret.inj (Option.some.inj ho)).symm, href buf n hw⟩

theorem WritesNone.of_ne {b : ℕ} {buf : Word} {n : Int} (h : σ.writeAt l = some (b, buf, n))
    (hb : a ≠ b) : σ.WritesNone l a := by
  intro buf' n' v hw
  rw [h] at hw
  exact absurd (Prod.mk.inj (Option.some.inj hw)).1.symm hb

namespace PipeStep

variable {calm : Prop}

theorem of_eq (h : σ'.pipes = σ.pipes) (hr : σ.ReadsNone l a) (hw : σ.WritesNone l a)
    (ha : a ∈ σ'.pipes.list) : PipeStep calm σ σ' l a := by
  refine .same ?_ hr hw (by rw [h])
  rw [← h]
  exact ha

/-- A write to another pipe. -/
theorem of_write {b : ℕ} {y : PipeInfo} (h : σ'.pipes = σ.pipes.write b y) (hb : a ≠ b)
    (hr : σ.ReadsNone l a) (hw : σ.WritesNone l a) (ha : a ∈ σ'.pipes.list) :
    PipeStep calm σ σ' l a := by
  rw [h, Table.list_write] at ha
  exact .same ha hr hw (by rw [h, Table.cell_write_of_ne hb])

/-- A turn of a PipeRead, with what comes around it in its step. -/
theorem turn {σ₁ τ : Kernel} {b : ℕ} {x : Int} {buf : Word} {n : Int} {e : Bool}
    (hstart : σ.callState l = σ₁) (hpipes : σ₁.pipes = σ.pipes) (hcall : calm → σ₁.Calling p)
    (hp : σ.activeProc = some p) (h : σ₁.pipeReadLoop p b x buf n e = some (o, τ))
    (hr : σ.readAt l = some (b, buf, n))
    (hw : ∀ c, σ.WritesNone l c) (ho : σ.outcome l = some o)
    (he : e = true ∨ x = (σ.pipes.cell b).pipeid) (ha : a ∈ (finish (o, τ)).pipes.list) :
    PipeStep calm σ (finish (o, τ)) l a := by
  obtain ⟨hmem, hcases⟩ := pipeReadLoop_cases h
  have hfin := finish_pipes o τ
  rcases hcases with ⟨hless, hne, w, hwrite, hsleep⟩ | ⟨hle, htake⟩
  · rw [hpipes] at hmem hless hwrite hsleep
    have hd : ∀ c, σ.ReadsNone l c := .of_outcome (by simp [ho, hne])
    by_cases hb : a = b
    · subst hb
      refine .queued (w := w) hmem (hd a) (hw a) (fun hc => ?_) ?_
      · obtain ⟨hk, hlist⟩ := hsleep (hcall hc)
        refine ⟨p, x, buf, n, e, hp, hless, ?_, he, hlist⟩
        rw [((finish_touches o τ).same .contexts (by simp)).2]
        exact hk
      · rw [hfin, hwrite, Table.cell_write_self hmem]
    · exact .of_write (hfin.trans hwrite) hb (hd a) (hw a) ha
  · obtain ⟨rfl, ⟨τ', hcopy, hphys⟩, hwake, hwrite⟩ := takeBytes_cases hmem htake
    rw [hpipes] at hmem hle hwake hwrite hcopy
    by_cases hb : a = b
    · subst hb
      refine .read hmem hr (hw a) ho hle ⟨τ', ?_, hphys⟩ (fun hc => hwake (hcall hc).ok) ?_
      · rw [hstart, delivered, hr, ← hcopy]
        dsimp only
        rw [if_pos ⟨rfl, ho⟩]
      rw [hfin, hwrite, Table.cell_write_self hmem]
    · exact .of_write (hfin.trans hwrite) hb (.of_ne hr hb) (hw a) ha

end PipeStep

/-- What one step does to a pipe that is there after it. -/
theorem pipe_step {calm : Prop} (hcalm : calm → σ.Placed ∧ σ.Allocates l σ' ∧ σ.IdlePauses l)
    (h : Steps σ l σ') (ha : a ∈ σ'.pipes.list) : PipeStep calm σ σ' l a := by
  have hs := h
  cases h with
  | @call u p c o τ hl hu hv hp hc h =>
      have hcall : calm → ((σ.begin l).enter u).Calling p := fun hc =>
        have ⟨hinv, hal, hi⟩ := hcalm hc
        hinv.calling (enter_touches σ l u) hal.begin hp (hi.ne hl hp (by simp [hv]))
      have ho := outcome_call hl hv hp hc h
      have hlc : l.call = some c := by simp [Label.call, hl, hv, hc]
      have hread := readAt_of_call (σ := σ) hl hlc
      have hwrite := writeAt_of_call (σ := σ) hl hlc
      have hd : c ≠ .pipeRead → ∀ b, σ.ReadsNone l b := fun hn =>
        .of_readAt (hread.trans (if_neg hn))
      have hw : c ≠ .pipeWrite → ∀ b, σ.WritesNone l b := fun hn =>
        .of_writeAt (hwrite.trans (if_neg hn))
      have hfin := finish_pipes o τ
      cases c with
      | pipeInit =>
          rcases sysPipeInit_pipes (p := p) h with ⟨hint, x, halloc⟩ | hsame
          · rw [hfin, halloc] at ha
            rcases List.mem_append.1 ha with hm | hm
            · refine .same hm (hd (by simp) a) (hw (by simp) a) ?_
              rw [hfin, halloc]
              exact Table.cell_alloc_of_mem hm hint _
            · obtain rfl := List.mem_singleton.1 hm
              refine .fresh (Table.fresh_not_mem _ hint) x ?_
              rw [hfin, halloc]
              exact Table.cell_alloc_self _ hint _
          · exact .of_eq (hfin.trans hsame) (hd (by simp) a) (hw (by simp) a) ha
      | pipeRead =>
          have hfail : ∀ {v : Int}, o = .ret v → v ≠ 0 → τ = (σ.begin l).enter u →
              PipeStep calm σ (finish (o, τ)) l a := by
            rintro v rfl hne rfl
            exact .of_eq hfin (.of_outcome (by simpa [ho] using hne) a)
              (hw (by simp) a) ha
          change ((σ.begin l).enter u).sysPipeRead p = _ at h
          unfold sysPipeRead at h
          dsimp only at h
          split at h
          · obtain ⟨rfl, rfl⟩ := Prod.mk.inj (Option.some.inj h)
            exact hfail rfl (by decide) rfl
          split at h
          · obtain ⟨rfl, rfl⟩ := Prod.mk.inj (Option.some.inj h)
            exact hfail rfl (by decide) rfl
          split at h
          · obtain ⟨rfl, rfl⟩ := Prod.mk.inj (Option.some.inj h)
            exact hfail rfl (by decide) rfl
          split at h
          · obtain ⟨rfl, rfl⟩ := Prod.mk.inj (Option.some.inj h)
            exact hfail rfl (by decide) rfl
          · rename_i b hb
            have hbegin : ((σ.begin l).enter u).pipes = σ.pipes := rfl
            refine .turn (by simp [callState, hl]) hbegin hcall hp h ?_ (hw (by simp)) ho
              (.inr ?_) ha
            · rw [hread, if_pos rfl]
              exact Option.map_eq_some_iff.2 ⟨b, hb, rfl⟩
            · have hid := Table.prop_of_find? hb
              exact (of_decide_eq_true hid).symm
      | pipeWrite =>
          rcases sysPipeWrite_cases h with
            ⟨rfl, rfl, hwhy⟩ | ⟨b, len, bytes, hb, rfl, hlen, rfl, hbytes, hwake, hpipes⟩
          · refine .of_eq hfin (hd (by simp) a) (.of_error ho fun buf n hat => ?_) ha
            rw [hwrite, if_pos rfl] at hat
            obtain ⟨b, hb, heq⟩ := Option.map_eq_some_iff.1 hat
            obtain ⟨rfl, rfl, rfl⟩ := by simpa using heq
            have hid := Table.prop_of_find? hb
            have hid : (σ.pipes.cell b).pipeid = (u.regs 0).toInt := of_decide_eq_true hid
            unfold RefusesWrite
            rw [hid]
            exact (hwhy b hb).imp_left fun hbad => ⟨p, hp, hbad⟩
          · have hmem : b ∈ σ.pipes.list := Table.mem_of_find? hb
            have hat : σ.writeAt l = some (b, u.regs 1, (u.regs 2).toInt) := by
              rw [hwrite, if_pos rfl]
              exact Option.map_eq_some_iff.2 ⟨b, hb, rfl⟩
            by_cases hab : a = b
            · subst hab
              have hload := (copyIn_congr (τ := (σ.begin l).enter u) (σ := σ) (by rfl) (by rfl)
                _ _).symm.trans hbytes
              refine .write hmem (hd (by simp) a) hat hlen ho hload
                (fun hc => hwake (hcall hc).ok) ?_
              · rw [hfin, hpipes, Table.cell_write_self (by exact hmem)]
                rfl
            · exact .of_write (hfin.trans hpipes) hab (hd (by simp) a) (.of_ne hat hab) ha
      | reclaim =>
          rw [hfin] at ha
          obtain ⟨hm, hcell⟩ := (sysReclaim_frees h).1.keeps ha
          exact .same hm (hd (by simp) a) (hw (by simp) a) (by rw [hfin, hcell]; rfl)
      | _ =>
          exact .of_eq (hfin.trans ((sysCall_touches h).same .pipes (by simp [callViews])))
            (hd (by simp) a) (hw (by simp) a) ha
  | @resume p o τ hl hu hp h =>
      have ho := outcome_resume hl hp h
      have hw : ∀ b, σ.WritesNone l b := .of_writeAt (by simp [writeAt, hl])
      have hfin := finish_pipes o τ
      cases hk : (σ.pcb p).kctxt with
      | pipeRead b x buf n e =>
          have hcall : calm → ((σ.begin l).restore p).Calling p := fun hc =>
            have ⟨hinv, hal, _⟩ := hcalm hc
            hinv.continuing hal hp (by simp [hk])
          rw [hk] at h
          change ((σ.begin l).restore p).sysPipeReadResume p b x buf n e = _ at h
          unfold sysPipeReadResume at h
          dsimp only at h
          split at h
          · rename_i hexist
            have hbegin : ((σ.begin l).restore p).pipes = σ.pipes := rfl
            exact .turn (by simp [callState, hl, hp]) hbegin hcall hp h
              (by simp [readAt, hl, hp, hk]) hw ho (.inl hexist) ha
          · obtain ⟨rfl, rfl⟩ := Prod.mk.inj (Option.some.inj h)
            exact .of_eq hfin (.of_outcome (by simp [ho, error]) a) (hw a) ha
      | _ =>
          refine .of_eq
            (hfin.trans ((resumeCall_touches h).same .pipes (by simp [hk, resumeViews])))
            (.of_readAt ?_ a) (hw a) ha
          simp [readAt, hl, hp, hk]
  | _ =>
      have hnone : l.call = none := by simp_all [Label.call]
      have hres : l.event ≠ .resume := by simp_all
      refine .of_eq (hs.quiet (v := .pipes) hnone hres (by simp))
        (.of_readAt ?_ a) (.of_writeAt ?_ a) ha
      · unfold readAt
        split <;> simp_all
      · unfold writeAt
        split <;> simp_all

end Kernel

end Yalnix
