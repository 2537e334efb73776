import Mathlib.Data.List.DropRight
import Yalnix.Sync.Pipe

/-!
# The byte stream of a pipe

The bytes that the reads of a pipe have delivered, followed by those that its buffer
holds, are the bytes that its writes have accepted. A pipe begins with an empty stream
when it is created, also when its address had been that of another pipe.
-/

namespace Yalnix

open Transition

/-- The bytes that a pipe holds. -/
def PipeInfo.bytes (x : PipeInfo) : List Byte :=
  (List.range x.curLen.toNat).map x.pipeBuffer

namespace Kernel

variable {σ σ' : Kernel} {l : Label} {p q : Pid} {o : Outcome} {a : ℕ}
  {tr : List (Move Kernel Label)} {m : Move Kernel Label}

/-! ## Buffers -/

theorem copyIn_length {buf : Word} {n : ℕ} {bytes : List Byte} (h : σ.copyIn buf n = some bytes) :
    bytes.length = n := by
  induction n generalizing buf bytes with
  | zero =>
      obtain rfl := Option.some.inj h
      rfl
  | succ n ih =>
      unfold copyIn at h
      obtain ⟨b, -, h⟩ := Option.bind_eq_some_iff.1 h
      obtain ⟨bs, hbs, rfl⟩ := Option.map_eq_some_iff.1 h
      rw [List.length_cons, ih hbs]

/-- A write appends to the bytes of a pipe. -/
theorem bytes_fill (x : PipeInfo) {bs : List Byte} {n : Int} (hx : 0 ≤ x.curLen) (hn : 0 ≤ n)
    (hlen : bs.length = n.toNat) {w : List Pid} :
    PipeInfo.bytes { x with curLen := x.curLen + n, pipeBuffer := fill x bs, pipeWaitList := w } =
      x.bytes ++ bs := by
  unfold PipeInfo.bytes
  dsimp only
  rw [show (x.curLen + n).toNat = x.curLen.toNat + n.toNat by omega, List.range_add,
    List.map_append]
  congr 1
  · apply List.map_congr_left
    intro j hj
    have hlt := List.mem_range.1 hj
    exact if_neg (by omega)
  · apply List.ext_getElem
    · simp [hlen]
    · intro j h₁ h₂
      simp [fill, h₂]

/-- A read takes bytes from the front of a pipe. -/
theorem bytes_take (x : PipeInfo) {n : Int} (hn : 0 ≤ n) (hle : n ≤ x.curLen) {w : List Pid} :
    (List.range n.toNat).map x.pipeBuffer ++
      PipeInfo.bytes { x with
        curLen := x.curLen - n, pipeBuffer := fun j => x.pipeBuffer (n.toNat + j)
        pipeWaitList := w } = x.bytes := by
  unfold PipeInfo.bytes
  dsimp only
  rw [show x.curLen.toNat = n.toNat + (x.curLen - n).toNat by omega, List.range_add,
    List.map_append, List.map_map]
  rfl

/-! ## Lengths of reads -/

/-- No read asks for a negative number of bytes. -/
def ReadsForward (σ : Kernel) : Prop :=
  ∀ q a x buf n e, (σ.pcb q).kctxt = .pipeRead a x buf n e → 0 ≤ n

theorem ReadsForward.step (h : σ.ReadsForward) (hs : Steps σ l σ') : σ'.ReadsForward := by
  intro q a x buf n e hk
  rcases (step_suspends hs).kctxt q with hsame | ⟨-, hplaces⟩ | ⟨hstart, -⟩
  · exact h q a x buf n e (hsame.symm.trans hk)
  · rw [hk] at hplaces
    rcases hplaces with ⟨c, -, hc⟩ | ⟨-, hpre⟩ | ⟨-, p, -, hr⟩
    · cases c <;> simp [callPlaces] at hc
      exact hc.1
    · simp at hpre
    · cases hkp : (σ.pcb p).kctxt with
      | pipeRead a' x' buf' n' e' =>
          rw [hkp] at hr
          obtain ⟨e'', he⟩ := hr
          simp only [KernelContext.pipeRead.injEq] at he
          obtain ⟨rfl, rfl, rfl, rfl, -⟩ := he
          exact h p _ _ _ _ _ hkp
      | _ => simp [hkp, resumePlaces] at hr
  · rw [hstart] at hk
    simp at hk

/-- A read that returns 0 has asked for a number of bytes. -/
theorem readAt_nonneg {buf : Word} {n : Int} (hfwd : σ.ReadsForward) (hs : Steps σ l σ')
    (hr : σ.readAt l = some (a, buf, n)) (ho : σ.outcome l = some (.ret 0)) : 0 ≤ n := by
  cases hl : l.event with
  | trap u =>
      by_cases hc : l.call = some .pipeRead
      · obtain ⟨u', p, o, τ, hl', -, -, hcall, -, ho'⟩ := hs.of_call hc
        obtain rfl := Event.trap.inj (hl.symm.trans hl')
        obtain rfl := Option.some.inj (ho'.symm.trans ho)
        rw [readAt_of_call hl hc, if_pos rfl] at hr
        obtain ⟨b, -, heq⟩ := Option.map_eq_some_iff.1 hr
        have hn := (Prod.mk.inj (Prod.mk.inj heq).2).2
        change ((σ.begin l).enter u).sysPipeRead p = _ at hcall
        unfold sysPipeRead at hcall
        dsimp only at hcall
        split at hcall
        · simp [error] at hcall
        split at hcall
        · simp [error] at hcall
        split at hcall
        · simp [error] at hcall
        · rename_i hlen
          exact hn ▸ not_lt.1 hlen
      · simp [readAt, hl, hc] at hr
  | resume =>
      unfold readAt at hr
      rw [hl] at hr
      obtain ⟨p, hp, hr⟩ := Option.bind_eq_some_iff.1 hr
      split at hr
      · rename_i hk
        obtain ⟨rfl, rfl, rfl⟩ := by simpa using hr
        exact hfwd p _ _ _ _ _ hk
      · simp at hr
  | store x y => simp [readAt, hl] at hr

/-! ## The law -/

/-- The moves of a run since the pipe at `a` is there. -/
def life (a : ℕ) (tr : List (Move Kernel Label)) : List (Move Kernel Label) :=
  tr.rtakeWhile fun m => a ∈ m.before.pipes.list

/-- The bytes that the writes of the pipe at `a` have put into it. -/
def written (a : ℕ) (tr : List (Move Kernel Label)) : List Byte :=
  (life a tr).flatMap fun m => m.before.accepted m.label a

/-- The bytes that the reads of the pipe at `a` have been given. -/
def taken (a : ℕ) (tr : List (Move Kernel Label)) : List Byte :=
  (life a tr).flatMap fun m => m.before.delivered m.label a

theorem written_snoc (h : a ∈ m.before.pipes.list) :
    written a (tr ++ [m]) = written a tr ++ m.before.accepted m.label a := by
  simp [written, life, h]

theorem taken_snoc (h : a ∈ m.before.pipes.list) :
    taken a (tr ++ [m]) = taken a tr ++ m.before.delivered m.label a := by
  simp [taken, life, h]

/-- A PipeWrite takes as many bytes as fit, the leading ones of its buffer, and returns their
number. It fails only for a bad pointer, a negative id or a negative length, and then it takes
none. -/
def WritesWell (a : ℕ) (m : Move Kernel Label) : Prop :=
  ∀ buf len v, m.before.writeAt m.label = some (a, buf, len) →
    m.before.outcome m.label = some (.ret v) →
    (m.before.RefusesWrite a buf len ∧ v = error ∧ m.before.accepted m.label a = []) ∨
      (0 ≤ len ∧ v = min len (pipeBufSize - (m.before.pipes.cell a).curLen) ∧
        m.before.copyIn buf v.toNat = some (m.before.accepted m.label a) ∧
        ((m.before.accepted m.label a).length : Int) = v)

/-- A PipeRead that returns 0 has stored as many bytes as it asked for in its buffer. -/
def ReadsWell (a : ℕ) (m : Move Kernel Label) : Prop :=
  ∀ buf len, m.before.readAt m.label = some (a, buf, len) →
    m.before.outcome m.label = some (.ret 0) →
    ((m.before.delivered m.label a).length : Int) = len ∧
      ∃ τ, (m.before.callState m.label).copyOut buf (m.before.delivered m.label a) = some τ ∧
        m.after.phys = τ.phys

/-- What has been read and what is left is what has been written, and it fits. -/
structure PipeLaw (a : ℕ) (tr : List (Move Kernel Label)) (x : PipeInfo) : Prop where
  nonneg : 0 ≤ x.curLen
  le : x.curLen ≤ pipeBufSize
  stream : taken a tr ++ x.bytes = written a tr
  moves : ∀ m ∈ life a tr, WritesWell a m ∧ ReadsWell a m

theorem ReadsNone.readsWell (h : m.before.ReadsNone m.label a) : ReadsWell a m :=
  fun buf n hr ho => absurd ho (h buf n hr)

theorem WritesNone.writesWell (h : m.before.WritesNone m.label a) : WritesWell a m :=
  fun buf n v hw ho =>
    have ⟨he, href⟩ := h buf n v hw ho
    .inl ⟨href, he, h.accepted⟩

theorem life_snoc (h : a ∈ m.before.pipes.list) : life a (tr ++ [m]) = life a tr ++ [m] := by
  simp [life, h]

/-- A move that neither reads nor writes. -/
theorem PipeLaw.still {x y : PipeInfo} (h : PipeLaw a tr x) (ha : a ∈ m.before.pipes.list)
    (hd : m.before.ReadsNone m.label a) (hw : m.before.WritesNone m.label a)
    (hlen : y.curLen = x.curLen) (hbuf : y.pipeBuffer = x.pipeBuffer) :
    PipeLaw a (tr ++ [m]) y := by
  obtain ⟨hnonneg, hle, hstream, hmoves⟩ := h
  have hbytes : y.bytes = x.bytes := by rw [PipeInfo.bytes, PipeInfo.bytes, hlen, hbuf]
  refine ⟨hlen ▸ hnonneg, hlen ▸ hle, ?_, fun m' hm' => ?_⟩
  · rw [taken_snoc ha, written_snoc ha, hd.delivered, hw.accepted, hbytes, List.append_nil,
      List.append_nil, hstream]
  · rw [life_snoc ha] at hm'
    rcases List.mem_append.1 hm' with hm' | hm'
    · exact hmoves m' hm'
    · rw [List.mem_singleton.1 hm']
      exact ⟨hw.writesWell, hd.readsWell⟩

theorem PipeLaw.step (h : a ∈ σ.pipes.list → PipeLaw a tr (σ.pipes.cell a))
    (hfwd : σ.ReadsForward) (hs : Steps σ l σ') (hpipe : PipeStep False σ σ' l a) :
    PipeLaw a (tr ++ [⟨σ, l, σ'⟩]) (σ'.pipes.cell a) := by
  cases hpipe with
  | same ha hd hw hcell => exact (h ha).still ha hd hw (by rw [hcell]) (by rw [hcell])
  | fresh ha x hcell =>
      have hlife : life a (tr ++ [⟨σ, l, σ'⟩]) = [] := by simp [life, ha]
      rw [hcell]
      refine ⟨le_rfl, show (0 : Int) ≤ pipeBufSize by decide, ?_, ?_⟩
      · simp [taken, written, hlife, PipeInfo.bytes]
      · simp [hlife]
  | queued ha hd hw _ hcell => exact (h ha).still ha hd hw (by rw [hcell]) (by rw [hcell])
  | @read buf n ha hr hw ho hle hcopy _ hcell =>
      obtain ⟨hnonneg, hfits, hstream, hmoves⟩ := h ha
      have hn : 0 ≤ n := readAt_nonneg hfwd hs hr ho
      have hdel : σ.delivered l a = (List.range n.toNat).map (σ.pipes.cell a).pipeBuffer := by
        unfold delivered
        rw [hr]
        exact if_pos ⟨rfl, ho⟩
      refine ⟨?_, ?_, ?_, fun m hm => ?_⟩
      · rw [hcell]
        dsimp only
        omega
      · rw [hcell]
        dsimp only
        omega
      · rw [taken_snoc ha, written_snoc ha, hw.accepted, hdel, hcell, List.append_nil,
          List.append_assoc, bytes_take _ hn hle, hstream]
      · rw [life_snoc ha] at hm
        rcases List.mem_append.1 hm with hm | hm
        · exact hmoves m hm
        · rw [List.mem_singleton.1 hm]
          refine ⟨hw.writesWell, fun buf' n' hr' _ => ?_⟩
          obtain ⟨rfl, rfl⟩ : buf = buf' ∧ n = n' := by
            have heq := Option.some.inj (hr.symm.trans hr')
            exact ⟨(Prod.mk.inj (Prod.mk.inj heq).2).1, (Prod.mk.inj (Prod.mk.inj heq).2).2⟩
          refine ⟨?_, hcopy⟩
          rw [show (Move.mk σ l σ').before.delivered l a = _ from hdel, List.length_map,
            List.length_range]
          omega
  | @write buf len bytes ha hd hw hlen ho hbytes _ hcell =>
      obtain ⟨hnonneg, hfits, hstream, hmoves⟩ := h ha
      have hacc : σ.accepted l a = bytes := by
        unfold accepted
        rw [hw, ho]
        dsimp only
        rw [if_pos rfl, hbytes]
        rfl
      have hmin : 0 ≤ min len (pipeBufSize - (σ.pipes.cell a).curLen) := by omega
      have hlength := copyIn_length hbytes
      refine ⟨?_, ?_, ?_, fun m hm => ?_⟩
      · rw [hcell]
        dsimp only
        omega
      · rw [hcell]
        dsimp only
        omega
      · rw [taken_snoc ha, written_snoc ha, hd.delivered, hacc, hcell, List.append_nil,
          bytes_fill _ hnonneg hmin hlength, ← List.append_assoc, hstream]
      · rw [life_snoc ha] at hm
        rcases List.mem_append.1 hm with hm | hm
        · exact hmoves m hm
        · rw [List.mem_singleton.1 hm]
          refine ⟨fun buf' len' v hw' ho' => .inr ?_, hd.readsWell⟩
          obtain ⟨rfl, rfl⟩ : buf = buf' ∧ len = len' := by
            have heq := Option.some.inj (hw.symm.trans hw')
            exact ⟨(Prod.mk.inj (Prod.mk.inj heq).2).1, (Prod.mk.inj (Prod.mk.inj heq).2).2⟩
          obtain rfl := Outcome.ret.inj (Option.some.inj (ho.symm.trans ho'))
          refine ⟨hlen, rfl, ?_, ?_⟩
          · rw [show (Move.mk σ l σ').before.accepted l a = _ from hacc]
            exact hbytes
          · rw [show (Move.mk σ l σ').before.accepted l a = _ from hacc, hlength]
            omega

/-! ## All runs -/

variable {b : Boot} {σ₀ : Kernel}

/-- In every run a pipe holds no more than fits into its buffer, each write takes what fits
and returns its length, each read that returns 0 delivers what it asked for, and what the
reads have been given followed by what the pipe holds is what the writes have put into it. -/
theorem run_pipe_stream (h₀ : kernelStart b = some σ₀)
    (h : Run step (fun _ _ _ => True) σ₀ tr σ) (ha : a ∈ σ.pipes.list) :
    0 ≤ (σ.pipes.cell a).curLen ∧ (σ.pipes.cell a).curLen ≤ pipeBufSize ∧
      (∀ m ∈ life a tr, WritesWell a m ∧ ReadsWell a m) ∧
      taken a tr ++ (σ.pipes.cell a).bytes = written a tr := by
  have hboot := kernelStart_booted h₀
  obtain ⟨-, hlaw⟩ := h.history
    (I := fun tr σ => σ.ReadsForward ∧ ∀ a ∈ σ.pipes.list, PipeLaw a tr (σ.pipes.cell a))
    ⟨fun q a x buf n e hk => by simp [hboot.kctxt q] at hk,
      fun a ha => by simp [hboot.pipes] at ha⟩
    fun tr σ l σ' ⟨hfwd, hlaw⟩ hs _ =>
      ⟨hfwd.step (step_cases hs), fun a ha =>
        .step (hlaw a) hfwd (step_cases hs) (pipe_step False.elim (step_cases hs) ha)⟩
  obtain ⟨hnonneg, hle, hstream, hmoves⟩ := hlaw a ha
  exact ⟨hnonneg, hle, hmoves, hstream⟩

/-- The theorem on a run in which a child waits for more bytes than init writes first. -/
theorem run_pipe_stream_child : ∃ σ₀ tr σ, kernelStart smallBoot = some σ₀ ∧
    Run step (fun _ _ _ => True) σ₀ tr σ ∧
    (σ.pipes.cell 0).curLen = 1 ∧ taken 0 tr ++ (σ.pipes.cell 0).bytes = written 0 tr := by
  obtain ⟨σ₀, tr, σ, h₀, hr, ha, hone⟩ := bootExec_state (b := smallBoot)
    (C := fun _ _ _ => True)
    (t := [smallCall .pipeInit vmem1Base 0 0, smallCall .fork 0 0 0, clockTick, resumption,
      smallCall .pipeRead 1 (vmem1Base + 8) 3, resumption,
      smallCall .pipeWrite 1 vmem1Base 2, smallCall .pipeWrite 1 vmem1Base 2, clockTick,
      resumption])
    (P := fun σ => 0 ∈ σ.pipes.list ∧ (σ.pipes.cell 0).curLen = 1)
    (by decide +kernel)
  exact ⟨σ₀, tr, σ, h₀, hr, hone, (run_pipe_stream h₀ hr ha).2.2.2⟩

end Kernel

end Yalnix
