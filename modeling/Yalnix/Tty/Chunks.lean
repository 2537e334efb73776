import Yalnix.Memory.Isolation
import Yalnix.Sync.Stream
import Yalnix.Tree.Links
import Yalnix.Tty.Read

/-!
# What a TtyWrite transmits

The loop of `sys_TtyWrite` counts down the bytes that remain and never moves the start of
the buffer. Each chunk is a head of the buffer, as long as it should be, so what arrives
repeats the first bytes. `Writing` has what is true of a writer between two turns of its
loop, whatever the other processes do meanwhile.
-/

namespace Yalnix

open Transition

/-! ## The chunks -/

/-- The first `k` chunks of a TtyWrite of the bytes `B`. -/
def heads (B : List Byte) (k : ℕ) : List (List Byte) :=
  (List.range k).map fun i => B.take (min terminalMaxLine (B.length - terminalMaxLine * i))

/-- From byte `TERMINAL_MAX_LINE` on, `B` repeats its first bytes. -/
def Repeats (B : List Byte) : Prop :=
  ∀ j < B.length, B.getD j 0 = B.getD (j % terminalMaxLine) 0

/-- `k` chunks of the bytes `B` are not too many. -/
def Fits (B : List Byte) (k : ℕ) : Prop := ∀ i < k, terminalMaxLine * i < B.length

variable {B : List Byte} {k : ℕ}

theorem take_eq_map_range {n : ℕ} (h : n ≤ B.length) :
    B.take n = (List.range n).map fun j => B.getD j 0 := by
  apply List.ext_getElem
  · simpa using h
  · intro j h₁ h₂
    have hj : j < B.length := by
      rw [List.length_take] at h₁
      omega
    simp [List.getElem?_eq_getElem hj]

theorem heads_succ (B : List Byte) (k : ℕ) :
    heads B (k + 1) =
      heads B k ++ [B.take (min terminalMaxLine (B.length - terminalMaxLine * k))] := by
  unfold heads
  rw [List.range_succ, List.map_append]
  rfl

@[simp] theorem length_heads (B : List Byte) (k : ℕ) : (heads B k).length = k := by
  simp [heads]

theorem Fits.succ (h : Fits B k) (hk : terminalMaxLine * k < B.length) : Fits B (k + 1) := by
  intro i hi
  rcases Nat.lt_succ_iff_lt_or_eq.1 hi with hi | rfl
  · exact h i hi
  · exact hk

/-- The loop of `sys_TtyWrite` ends. -/
theorem Fits.le (h : Fits B k) : k ≤ (B.length + terminalMaxLine - 1) / terminalMaxLine := by
  cases k with
  | zero => exact Nat.zero_le _
  | succ k =>
      have hlast := h k (Nat.lt_succ_self k)
      unfold terminalMaxLine at hlast ⊢
      omega

theorem Fits.length (h : Fits B k) {c : List Byte} (hc : c ∈ heads B k) :
    1 ≤ c.length ∧ c.length ≤ terminalMaxLine := by
  obtain ⟨i, hi, rfl⟩ := List.mem_map.1 hc
  have hlt := h i (List.mem_range.1 hi)
  rw [List.length_take]
  unfold terminalMaxLine at hlt ⊢
  omega

/-- Byte `j` of what the chunks carry is byte `j % TERMINAL_MAX_LINE` of the buffer. -/
theorem flatten_heads (h : Fits B k) : (heads B k).flatten =
    (List.range (min (terminalMaxLine * k) B.length)).map fun j =>
      B.getD (j % terminalMaxLine) 0 := by
  induction k with
  | zero => simp [heads]
  | succ k ih =>
      have hk := h k (Nat.lt_succ_self k)
      have hsplit : min (terminalMaxLine * (k + 1)) B.length =
          terminalMaxLine * k + min terminalMaxLine (B.length - terminalMaxLine * k) := by
        unfold terminalMaxLine at hk ⊢
        omega
      have hchunk : min terminalMaxLine (B.length - terminalMaxLine * k) ≤ B.length := by omega
      rw [heads_succ, List.flatten_append, ih fun i hi => h i (Nat.lt_succ_of_lt hi),
        min_eq_left (le_of_lt hk), hsplit, List.range_add, List.map_append, List.flatten_singleton,
        take_eq_map_range hchunk, List.map_map]
      congr 1
      apply List.map_congr_left
      intro j hj
      have hlt : j < terminalMaxLine :=
        lt_of_lt_of_le (List.mem_range.1 hj) (min_le_left _ _)
      rw [Function.comp_apply, Nat.mul_add_mod, Nat.mod_eq_of_lt hlt]

/-- The chunks carry the buffer exactly when it repeats its first bytes. -/
theorem flatten_heads_eq_iff (h : Fits B k) (hk : B.length ≤ terminalMaxLine * k) :
    (heads B k).flatten = B ↔ Repeats B := by
  have hself : B = (List.range B.length).map fun j => B.getD j 0 := by
    rw [← take_eq_map_range le_rfl, List.take_length]
  rw [flatten_heads h, min_eq_right hk]
  constructor
  · intro he j hj
    have hsame := congrArg (fun b : List Byte => b.getD j 0) he
    rw [← hsame]
    simp [hj]
  · intro hrep
    conv_rhs => rw [hself]
    apply List.map_congr_left
    intro j hj
    exact (hrep j (List.mem_range.1 hj)).symm

theorem map_snd_heads (t : Int) (B : List Byte) (k : ℕ) :
    ((heads B k).map fun c => (t, c)).map Prod.snd = heads B k := by
  rw [List.map_map]
  exact List.map_id _

theorem Fits.sizes (h : Fits B k) {t : Int} {c : Int × List Byte}
    (hc : c ∈ (heads B k).map fun c => (t, c)) :
    c.1 = t ∧ 1 ≤ c.2.length ∧ c.2.length ≤ terminalMaxLine := by
  obtain ⟨c', hc', rfl⟩ := List.mem_map.1 hc
  exact ⟨rfl, h.length hc'⟩

namespace Kernel

variable {σ σ' τ : Kernel} {l : Label} {p q : Pid} {o : Outcome} {t r : Int} {a : Word} {n : ℕ}

/-! ## Reading the buffer -/

theorem copyIn_take {m : ℕ} {bytes : List Byte} (h : σ.copyIn a n = some bytes) (hm : m ≤ n) :
    σ.copyIn a m = some (bytes.take m) := by
  induction n generalizing a m bytes with
  | zero =>
      obtain rfl := Nat.le_zero.1 hm
      rfl
  | succ n ih =>
      cases m with
      | zero => rfl
      | succ m =>
          unfold copyIn at h ⊢
          obtain ⟨b, hb, h⟩ := Option.bind_eq_some_iff.1 h
          obtain ⟨bs, hbs, rfl⟩ := Option.map_eq_some_iff.1 h
          rw [hb, Option.bind_some, ih hbs (Nat.le_of_succ_le_succ hm)]
          rfl

/-- What a process reads depends on its page table and on the frames that it maps. -/
theorem restore_copyIn (htable : (σ'.space p).uPageTable = (σ.space p).uPageTable)
    (hphys : ∀ f, σ.HasPage p f → σ'.phys f = σ.phys f) (a : Word) (n : ℕ) :
    (σ'.restore p).copyIn a n = (σ.restore p).copyIn a n := by
  have htranslate : ∀ a, (σ'.restore p).translate protRead a =
      (σ.restore p).translate protRead a := by
    intro a
    unfold translate restore
    dsimp only [Option.bind_some]
    rw [htable]
  have hload : ∀ a, (σ'.restore p).loadByte a = (σ.restore p).loadByte a := by
    intro a
    unfold loadByte
    rw [htranslate]
    cases hx : (σ.restore p).translate protRead a with
    | none => rfl
    | some x =>
        have hpage := (maps_iff (σ := σ.restore p) rfl).1 (translate_maps hx)
        exact congrArg some (congrFun (hphys x.1 hpage) x.2)
  induction n generalizing a with
  | zero => rfl
  | succ n ih =>
      unfold copyIn
      rw [hload, ih]

/-! ## Calls and what they transmit -/

/-- What the step `m` transmits for `p`. -/
def sentBy (p : Pid) (m : Move Kernel Label) : List (Int × List Byte) :=
  if m.before.activeProc = some p then
    m.after.transmitted.drop m.before.transmitted.length
  else []

/-- The call that `p` makes or continues in the step `m` returns `v`. -/
def ReturnsWith (p : Pid) (v : Int) (m : Move Kernel Label) : Prop :=
  m.before.activeProc = some p ∧ m.before.outcome m.label = some (.ret v)

/-- In the step `m`, the process `p` calls TtyWrite with the bytes `B` for terminal `t`, and
the call is not refused. -/
structure CallsWrite (p : Pid) (t : Int) (B : List Byte) (m : Move Kernel Label) : Prop where
  active : m.before.activeProc = some p
  call : m.label.call = some .ttyWrite
  accepted : m.before.outcome m.label ≠ some (.ret error)
  terminal : ((m.before.callState m.label).reg 0).toInt = t
  bytes : (m.before.callState m.label).copyIn ((m.before.callState m.label).reg 1)
    ((m.before.callState m.label).reg 2).toInt.toNat = some B

/-- The process `p` is in a TtyWrite of the bytes `B` to terminal `t`, between two turns of
the loop; the `k` chunks that it has sent are the heads of `B`. -/
structure Writing (σ : Kernel) (p : Pid) (t : Int) (B : List Byte) (k : ℕ) : Prop where
  live : p ∈ σ.live
  away : ¬σ.inUser p
  rest : Writes t ((B.length - terminalMaxLine * k : ℕ) : Int) (σ.pcb p).kctxt
  fits : Fits B k
  len : ((σ.pcb p).uctxt.regs 2).toInt = B.length
  bytes : (σ.restore p).copyIn ((σ.pcb p).uctxt.regs 1) B.length = some B

/-- A writer does not notice the steps of other processes. -/
theorem Writing.keep (h : σ.Writing p t B k) (hinv : σ.Placed) (hst : σ.Stacked)
    (hmap : σ.Mapped) (howned : ∀ f, σ.owned f ≤ 1) (hs : Steps σ l σ') (ha : σ.Allocates l σ')
    (hi : σ.IdlePauses l) (hact : σ.activeProc ≠ some p) : σ'.Writing p t B k := by
  obtain ⟨q, hq⟩ := Option.ne_none_iff_exists'.1 hinv.active
  have hne : p ≠ q := by
    rintro rfl
    exact hact hq
  have hlive := (tree_step hinv hs ha hi).live_of h.live hact
  have haway : ¬σ'.inUser p := by
    rintro ⟨hp, hu⟩
    rcases step_active hs hq with hact' | hact' | hmode
    · exact hne (Option.some.inj (hp.symm.trans hact'))
    · rw [hp] at hact'
      exact absurd hact' (by simp)
    · rw [hu] at hmode
      exact absurd hmode (by simp)
  have hkctxt := hst.kctxt hs hact h.rest.ne.1
  rcases hst.left hinv hs ha hi hlive haway (hkctxt ▸ h.rest.ne.1) with ⟨hp, -⟩ | ⟨-, -, -, husers⟩
  · exact absurd hp hact
  obtain ⟨htable, hphys⟩ := step_isolates hinv hmap howned hs ha hq p h.live hne
  exact {
    live := hlive
    away := haway
    rest := hkctxt ▸ h.rest
    fits := h.fits
    len := by rw [husers, h.len]
    bytes := by rw [husers, restore_copyIn htable hphys, h.bytes] }

/-- A turn of a writer: it returns, waits for the terminal, or sends the next chunk. -/
inductive Turn (p : Pid) (t : Int) (B : List Byte) (k : ℕ) (m : Move Kernel Label) : Prop
  | returns (hret : ReturnsWith p B.length m) (hrest : B.length ≤ terminalMaxLine * k)
      (hsent : sentBy p m = [])
  | waits (hrest : terminalMaxLine * k < B.length) (hbusy : m.before.busyTerminal t = true)
      (hswitch : m.before.outcome m.label = some .switched) (hwriting : m.after.Writing p t B k)
      (hsent : sentBy p m = [])
  | sends (hrest : terminalMaxLine * k < B.length) (hfree : m.before.busyTerminal t = false)
      (hswitch : m.before.outcome m.label = some .switched)
      (hwriting : m.after.Writing p t B (k + 1))
      (hsent : sentBy p m =
        [(t, B.take (min terminalMaxLine (B.length - terminalMaxLine * k)))])

theorem restore_of_active (h : σ.ptbr1 = some p) (a : Word) (n : ℕ) :
    (σ.restore p).copyIn a n = σ.copyIn a n := by
  refine copyIn_congr (σ := σ) (τ := σ.restore p) ?_ rfl a n
  funext a
  unfold translate restore
  rw [h]

/-- The loop of `sys_TtyWrite`, when the first `k` chunks have been sent. -/
theorem ttyWrite_turn {σ₁ : Kernel} (hinv : σ'.Placed)
    (hleaves : σ'.inUser p ∨ (σ.leftAt l p (σ'.pcb p).kctxt ∧
      (σ'.pcb p).uctxt = σ₁.uContext ∧ σ'.userMode = false) ∨ p ∉ σ'.live)
    (hp : σ.activeProc = some p) (hb : Touches [.frames, .registers] σ σ₁)
    (hcall : σ₁.Calling p) (hptbr : σ₁.ptbr1 = some p) (ht : (σ₁.reg 0).toInt = t)
    (hfits : Fits B k) (hlen : (σ₁.reg 2).toInt = B.length)
    (hbytes : σ₁.copyIn (σ₁.reg 1) B.length = some B) (ho : σ.outcome l = some o)
    (h : σ₁.sysTtyWriteResume p t ((B.length - terminalMaxLine * k : ℕ) : Int) = some (o, τ))
    (he : σ' = finish (o, τ)) : Turn p t B k ⟨σ, l, σ'⟩ := by
  obtain ⟨hbusy, hsent, -⟩ := hb.same .terminals (by simp)
  have htouch := sysTtyWriteResume_touches h
  -- the writer that has blocked is away, and its buffer is as it was
  have hblocked : ∀ {k' : ℕ}, o = .switched → σ'.ioList = σ₁.ioList ++ [p] → Fits B k' →
      Writes t ((B.length - terminalMaxLine * k' : ℕ) : Int) (τ.pcb p).kctxt →
      σ'.Writing p t B k' := by
    rintro k' rfl hio hfits' hrest
    obtain rfl : σ' = τ := he
    have hmem : p ∈ σ'.ioList := hio ▸ List.mem_append_right _ (List.mem_singleton_self p)
    obtain ⟨hlive, hact, -⟩ := hinv.io_waiter hmem
    have haway : ¬σ'.inUser p := fun hin => hact hin.1
    have husers : (σ'.pcb p).uctxt = σ₁.uContext := by
      rcases hleaves with hin | ⟨-, husers, -⟩ | hgone
      · exact absurd hin haway
      · exact husers
      · exact absurd hlive hgone
    have hphys := htouch.same .memory (by simp)
    exact {
      live := hlive
      away := haway
      rest := hrest
      fits := hfits'
      len := by
        rw [husers]
        exact hlen
      bytes := by
        rw [husers, restore_copyIn ((htouch.same .frames (by simp)).layout p).table
          (fun f _ => congrFun hphys f), restore_of_active hptbr]
        exact hbytes }
  have htransmitted : σ'.transmitted = τ.transmitted := by
    rw [he]
    exact ((finish_touches o τ).same .terminals (by simp)).2.1
  have hsentBy : sentBy p ⟨σ, l, σ'⟩ = τ.transmitted.drop σ₁.transmitted.length := by
    unfold sentBy
    rw [if_pos hp, htransmitted, hsent]
  rcases ttyWriteLoop_cases hcall h with ⟨hr, rfl, rfl⟩ |
    ⟨hr, -, rfl, hio, hwaits, ⟨hb', hlines, hk⟩ | ⟨hb', -, ⟨bytes, hchunk, hnew⟩, hk⟩⟩
  · refine .returns ⟨hp, ?_⟩ ?_ ?_
    · rw [ho, hlen]
    · omega
    · rw [hsentBy, List.drop_length]
  · refine .waits (by omega) ?_ ho (hblocked rfl (he ▸ hio) hfits (.inl hk)) ?_
    · rw [← hbusy]
      exact hb'
    · rw [hsentBy, hlines.2, List.drop_length]
  · have hlt : terminalMaxLine * k < B.length := by omega
    have hsize : (min ((B.length - terminalMaxLine * k : ℕ) : Int) terminalMaxLine).toNat =
        min terminalMaxLine (B.length - terminalMaxLine * k) := by omega
    have hrest : ((B.length - terminalMaxLine * k : ℕ) : Int) -
        min ((B.length - terminalMaxLine * k : ℕ) : Int) terminalMaxLine =
          ((B.length - terminalMaxLine * (k + 1) : ℕ) : Int) := by
      unfold terminalMaxLine
      omega
    rw [hsize, copyIn_take hbytes (by omega)] at hchunk
    rw [hrest] at hk
    refine .sends hlt ?_ ho (hblocked rfl (he ▸ hio) (hfits.succ hlt) (.inr hk)) ?_
    · rw [← hbusy]
      exact hb'
    · rw [hsentBy, hnew, List.drop_left, ← Option.some.inj hchunk]

theorem Steps.resume_of_kernel (h : Steps σ l σ') (hmode : σ.userMode = false) :
    l.event = .resume := by
  cases h with
  | resume hl => exact hl
  | store hl hu => exact absurd (hu.symm.trans hmode) (by simp)
  | call hl hu => exact absurd (hu.symm.trans hmode) (by simp)
  | clock hl hu => exact absurd (hu.symm.trans hmode) (by simp)
  | abort hl hu => exact absurd (hu.symm.trans hmode) (by simp)
  | grow hl hu => exact absurd (hu.symm.trans hmode) (by simp)
  | receive hl hu => exact absurd (hu.symm.trans hmode) (by simp)
  | transmit hl hu => exact absurd (hu.symm.trans hmode) (by simp)
  | disk hl hu => exact absurd (hu.symm.trans hmode) (by simp)

/-- A writer that continues makes a turn. -/
theorem Writing.turn (h : σ.Writing p t B k) (hinv : σ.Placed) (hw : σ.Writers)
    (hs : Steps σ l σ') (ha : σ.Allocates l σ') (hi : σ.IdlePauses l)
    (hp : σ.activeProc = some p) : Turn p t B k ⟨σ, l, σ'⟩ := by
  have hmode : σ.userMode = false := by
    cases hu : σ.userMode with
    | false => rfl
    | true => exact absurd ⟨hp, hu⟩ h.away
  have hl := hs.resume_of_kernel hmode
  obtain ⟨r, o, τ, -, hr, hrun, he, ho⟩ := hs.of_resume hl
  obtain rfl : r = p := Option.some.inj (hr.symm.trans hp)
  have hcall := hinv.continuing ha hp h.rest.ne
  have hstart : σ.callState l = (σ.begin l).restore r := by simp [callState, hl, hp]
  have hloop : ((σ.begin l).restore r).sysTtyWriteResume r t
      ((B.length - terminalMaxLine * k : ℕ) : Int) = some (o, τ) := by
    rcases h.rest with hk | hk
    · rwa [hk] at hrun
    · rwa [hk] at hrun
  have hbytes : ((σ.begin l).restore r).copyIn ((σ.pcb r).uctxt.regs 1) B.length = some B := by
    have hsame : ∀ a n, ((σ.begin l).restore r).copyIn a n = (σ.restore r).copyIn a n :=
      restore_copyIn rfl fun _ _ => rfl
    rw [hsame]
    exact h.bytes
  have hterm := hw.args r h.live h.away t _ h.rest
  exact ttyWrite_turn (hinv.step hs ha hi) (hstart ▸ step_leaves hinv hs ha hp) hp
    (restore_touches σ l r) hcall rfl hterm h.fits h.len hbytes ho hloop he

/-- The call of TtyWrite makes the first turn. -/
theorem CallsWrite.turn {m : Move Kernel Label} (h : CallsWrite p t B m)
    (hinv : m.before.Placed) (hmap : m.before.Mapped) (hs : Steps m.before m.label m.after)
    (ha : m.before.Allocates m.label m.after) (hi : m.before.IdlePauses m.label) :
    Turn p t B 0 m := by
  obtain ⟨u, r, o, τ, hl, hv, hr, hrun, he, ho⟩ := hs.of_call h.call
  obtain rfl : r = p := Option.some.inj (hr.symm.trans h.active)
  have hmode := hs.userMode_of_trap hl
  have hstart := callState_trap (σ := m.before) hl
  have hbytes := h.bytes
  have haccepted := h.accepted
  have hterm := h.terminal
  rw [hstart] at hbytes hterm
  rw [ho] at haccepted
  have hpass := sysTtyWrite_passes (σ := (m.before.begin m.label).enter u) (p := r) (by
    intro hrefused
    have hsame := (Prod.mk.inj (Option.some.inj (hrefused.symm.trans hrun))).1
    exact haccepted (congrArg some hsame.symm))
  have hlen : (((m.before.begin m.label).enter u).reg 2).toInt = B.length := by
    have hlength := copyIn_length hbytes
    omega
  have hloop := (sysTtyWrite_cases hrun).resolve_left fun hrefused =>
    haccepted (congrArg some hrefused.1)
  rw [hterm, hlen] at hloop
  rw [hlen, Int.toNat_natCast] at hbytes
  refine ttyWrite_turn (hinv.step hs ha hi) (hstart ▸ step_leaves hinv hs ha hr) hr
    (enter_touches m.before m.label u) ?_ ((hmap hmode).trans hr) hterm (by simp [Fits]) hlen
    hbytes ho hloop he
  exact hinv.calling (enter_touches m.before m.label u) ha.begin hr (hi.ne hl hr (by simp [hv]))

/-! ## All runs -/

variable {b : Boot} {σ₀ : Kernel} {tr tr₁ tr₂ : List (Move Kernel Label)}
  {m : Move Kernel Label}

theorem Turn.next {k : ℕ} (h : Turn p t B k m) (hret : ∀ v, ¬ReturnsWith p v m)
    {cs : List (Int × List Byte)} (hcs : cs = (heads B k).map fun c => (t, c)) :
    ∃ k', m.after.Writing p t B k' ∧ cs ++ sentBy p m = (heads B k').map fun c => (t, c) := by
  cases h with
  | returns h => exact absurd h (hret _)
  | waits _ _ _ hwriting hsent => exact ⟨k, hwriting, by rw [hsent, List.append_nil, hcs]⟩
  | sends _ _ _ hwriting hsent =>
      refine ⟨k + 1, hwriting, ?_⟩
      rw [hsent, hcs, heads_succ, List.map_append]
      rfl

/-- Between the turns of a TtyWrite that has not returned. -/
theorem writing_of_run (hok : ∀ a ∈ b.procMallocs, a.ok = true) (h₀ : kernelStart b = some σ₀)
    (h : Run step (fun σ l σ' => σ.Allocates l σ' ∧ σ.IdlePauses l) σ₀ (tr₁ ++ m :: tr₂) σ)
    (hcall : CallsWrite p t B m) (hopen : ∀ m' ∈ m :: tr₂, ∀ v, ¬ReturnsWith p v m') :
    ∃ k, σ.Writing p t B k ∧
      (m :: tr₂).flatMap (sentBy p) = (heads B k).map fun c => (t, c) := by
  induction tr₂ using List.reverseRecOn generalizing σ with
  | nil =>
      obtain ⟨hr, hs, ⟨ha, hi⟩, rfl⟩ := h.last
      obtain ⟨hinv, hmap⟩ := mapped_of_run hok h₀ hr
      have hturn := hcall.turn hinv hmap (step_cases hs) ha hi
      have hcs : ([] : List (Int × List Byte)) = (heads B 0).map fun c => (t, c) := rfl
      obtain ⟨k, hwriting, hsent⟩ := hturn.next (hopen m (by simp)) hcs
      exact ⟨k, hwriting, by rw [List.flatMap_singleton, ← hsent, List.nil_append]⟩
  | append_singleton tr₂ m' ih =>
      rw [← List.cons_append, ← List.append_assoc] at h
      obtain ⟨hr, hs, ⟨ha, hi⟩, rfl⟩ := h.last
      obtain ⟨k, hwriting, hsent⟩ := ih hr fun m₁ hm₁ => hopen m₁ (by
        rw [← List.cons_append]
        exact List.mem_append_left _ hm₁)
      obtain ⟨hinv, hst⟩ := stacked_of_run hok h₀ hr
      have hw := writers_of_run hok h₀ hr
      rw [← List.cons_append, List.flatMap_append, List.flatMap_singleton]
      by_cases hact : m'.before.activeProc = some p
      · exact (hwriting.turn hinv hw (step_cases hs) ha hi hact).next (hopen m' (by simp)) hsent
      · have hsame := hwriting.keep hinv hst (mapped_of_run hok h₀ hr).2
          (run_owned hok h₀ hr) (step_cases hs) ha hi hact
        refine ⟨k, hsame, ?_⟩
        rw [sentBy, if_neg hact, List.append_nil, hsent]

/-- Each step of `p` from the call on is a turn of the loop. -/
theorem turn_of_run (hok : ∀ a ∈ b.procMallocs, a.ok = true) (h₀ : kernelStart b = some σ₀)
    (h : Run step (fun σ l σ' => σ.Allocates l σ' ∧ σ.IdlePauses l) σ₀ tr σ)
    (htr : tr = tr₁ ++ m :: tr₂) (hcall : CallsWrite p t B m) {tr₃ : List (Move Kernel Label)}
    {m' : Move Kernel Label} (hlast : m :: tr₂ = tr₃ ++ [m'])
    (hopen : ∀ m₁ ∈ tr₃, ∀ v, ¬ReturnsWith p v m₁) (hact : m'.before.activeProc = some p) :
    ∃ k, Fits B k ∧ Turn p t B k m' ∧
      tr₃.flatMap (sentBy p) = (heads B k).map fun c => (t, c) := by
  cases tr₃ with
  | nil =>
      obtain ⟨rfl, rfl⟩ := List.cons_eq_cons.1 hlast
      obtain ⟨hr, hs, ha, hi⟩ := h.upTo htr
      obtain ⟨hinv, hmap⟩ := mapped_of_run hok h₀ hr
      exact ⟨0, by simp [Fits], hcall.turn hinv hmap (step_cases hs) ha hi, rfl⟩
  | cons m₁ tr₃ =>
      obtain ⟨rfl, rfl⟩ := List.cons_eq_cons.1 hlast
      have hsplit : tr = (tr₁ ++ m :: tr₃) ++ m' :: [] := by
        rw [htr, List.append_assoc]
        rfl
      obtain ⟨hr, hs, ha, hi⟩ := h.upTo hsplit
      obtain ⟨k, hwriting, hsent⟩ := writing_of_run hok h₀ hr hcall hopen
      exact ⟨k, hwriting.fits, hwriting.turn (stacked_of_run hok h₀ hr).1 (writers_of_run hok h₀ hr)
        (step_cases hs) ha hi hact, hsent⟩

/-- What TtyWrite promises of a call with the bytes `B` for terminal `t` that has returned
`v`, when it has made the transmissions `cs`. -/
structure WritesBuffer (t : Int) (B : List Byte) (v : Int) (cs : List (Int × List Byte)) :
    Prop where
  sizes : ∀ c ∈ cs, c.1 = t ∧ 1 ≤ c.2.length ∧ c.2.length ≤ terminalMaxLine
  bytes : (cs.map Prod.snd).flatten = B
  value : v = B.length

/-- What the loop of TtyWrite does next with the bytes `B` for terminal `t` when it has sent `k`
chunks: it returns when no byte remains, and else it waits while the terminal is busy and
sends the next chunk when it is not. -/
structure LoopsOn (p : Pid) (t : Int) (B : List Byte) (k : ℕ) (m : Move Kernel Label) :
    Prop where
  returns : ReturnsWith p B.length m ↔ B.length ≤ terminalMaxLine * k
  waits : terminalMaxLine * k < B.length → m.before.busyTerminal t = true → sentBy p m = []
  sends : terminalMaxLine * k < B.length → m.before.busyTerminal t = false →
    sentBy p m = [(t, B.take (min terminalMaxLine (B.length - terminalMaxLine * k)))]

theorem not_returnsWith_of_switched {v : Int}
    (h : m.before.outcome m.label = some .switched) : ¬ReturnsWith p v m := by
  rintro ⟨-, hret⟩
  rw [h] at hret
  exact absurd hret (by simp)

theorem Turn.loopsOn {k : ℕ} (h : Turn p t B k m) : LoopsOn p t B k m := by
  cases h with
  | returns hret hrest _ =>
      exact ⟨iff_of_true hret hrest, fun hlt => absurd hrest (not_le.2 hlt),
        fun hlt => absurd hrest (not_le.2 hlt)⟩
  | waits hrest hbusy hswitch _ hsent =>
      refine ⟨iff_of_false (not_returnsWith_of_switched hswitch) (not_le.2 hrest),
        fun _ _ => hsent, fun _ hfree => ?_⟩
      rw [hbusy] at hfree
      exact absurd hfree (by simp)
  | sends hrest hfree hswitch _ hsent =>
      refine ⟨iff_of_false (not_returnsWith_of_switched hswitch) (not_le.2 hrest),
        fun _ hbusy => ?_, fun _ _ => hsent⟩
      rw [hfree] at hbusy
      exact absurd hbusy (by simp)

/-- A turn that returns has sent the whole buffer exactly when the buffer repeats its first
bytes. -/
theorem Turn.returned {k : ℕ} {v : Int} {cs : List (Int × List Byte)} (h : Turn p t B k m)
    (hret : ReturnsWith p v m) (hk : Fits B k) (hcs : cs = (heads B k).map fun c => (t, c)) :
    v = B.length ∧ (WritesBuffer t B v (cs ++ sentBy p m) ↔ Repeats B) := by
  cases h with
  | waits _ _ hswitch => exact absurd hret (not_returnsWith_of_switched hswitch)
  | sends _ _ hswitch => exact absurd hret (not_returnsWith_of_switched hswitch)
  | returns hlen hrest hsent =>
      have hv : v = B.length :=
        Outcome.ret.inj (Option.some.inj (hret.2.symm.trans hlen.2))
      have hflat := flatten_heads_eq_iff hk hrest
      rw [hsent, List.append_nil, hcs]
      refine ⟨hv, fun hwrites => ?_, fun hrep => ⟨fun c hc => hk.sizes hc, ?_, hv⟩⟩
      · have hbytes := hwrites.bytes
        rw [map_snd_heads] at hbytes
        exact hflat.1 hbytes
      · rw [map_snd_heads]
        exact hflat.2 hrep

/-- A turn sends a chunk or none. -/
theorem Turn.sent {k : ℕ} (h : Turn p t B k m) (hk : Fits B k) : ∃ k', Fits B k' ∧
    ((heads B k).map fun c => (t, c)) ++ sentBy p m = (heads B k').map fun c => (t, c) := by
  cases h with
  | returns _ _ hsent => exact ⟨k, hk, by rw [hsent, List.append_nil]⟩
  | waits _ _ _ _ hsent => exact ⟨k, hk, by rw [hsent, List.append_nil]⟩
  | sends _ _ _ hwriting hsent =>
      refine ⟨k + 1, hwriting.fits, ?_⟩
      rw [hsent, heads_succ, List.map_append]
      rfl

/-- What a call has transmitted, whoever made the last step. -/
theorem chunks_of_run (hok : ∀ a ∈ b.procMallocs, a.ok = true) (h₀ : kernelStart b = some σ₀)
    (h : Run step (fun σ l σ' => σ.Allocates l σ' ∧ σ.IdlePauses l) σ₀ tr σ)
    (htr : tr = tr₁ ++ m :: tr₂) (hcall : CallsWrite p t B m)
    (hopen : ∀ m' ∈ (m :: tr₂).dropLast, ∀ v, ¬ReturnsWith p v m') : ∃ k, Fits B k ∧
      (m :: tr₂).flatMap (sentBy p) = (heads B k).map fun c => (t, c) := by
  obtain ⟨tr₃, m', hlast⟩ := (List.eq_nil_or_concat (m :: tr₂)).resolve_left (by simp)
  rw [List.concat_eq_append] at hlast
  rw [hlast, List.dropLast_concat] at hopen
  rw [hlast, List.flatMap_append, List.flatMap_singleton]
  by_cases hact : m'.before.activeProc = some p
  · obtain ⟨k, hk, hturn, hsent⟩ := turn_of_run hok h₀ h htr hcall hlast hopen hact
    rw [hsent]
    exact hturn.sent hk
  · cases tr₃ with
    | nil =>
        obtain ⟨rfl, -⟩ := List.cons_eq_cons.1 hlast
        exact absurd hcall.active hact
    | cons m₁ tr₃ =>
        obtain ⟨rfl, rfl⟩ := List.cons_eq_cons.1 hlast
        have hsplit : tr = (tr₁ ++ m :: tr₃) ++ m' :: [] := by
          rw [htr, List.append_assoc]
          rfl
        obtain ⟨hr, -⟩ := h.upTo hsplit
        obtain ⟨k, hwriting, hsent⟩ := writing_of_run hok h₀ hr hcall hopen
        exact ⟨k, hwriting.fits, by rw [sentBy, if_neg hact, List.append_nil, hsent]⟩

instance (p : Pid) (v : Int) (m : Move Kernel Label) : Decidable (ReturnsWith p v m) :=
  inferInstanceAs (Decidable (_ ∧ _))

/-- A process whose call returns goes back to user code. -/
theorem ReturnsWith.userMode {v : Int} (h : ReturnsWith p v m)
    (hs : Steps m.before m.label m.after) : m.after.userMode = true := by
  obtain ⟨hp, hret⟩ := h
  cases hev : m.label.event with
  | store a b => simp [outcome, hp, hev] at hret
  | resume =>
      obtain ⟨r, o, τ, -, -, -, he, ho⟩ := hs.of_resume hev
      obtain rfl := Option.some.inj (ho.symm.trans hret)
      rw [he]
      rfl
  | trap u =>
      cases hc : m.label.call with
      | none => simp [outcome, hp, hev, hc] at hret
      | some c =>
          obtain ⟨u', r, o, τ, -, -, -, -, he, ho⟩ := hs.of_call hc
          obtain rfl := Option.some.inj (ho.symm.trans hret)
          rw [he]
          rfl

/-- The steps of a TtyWrite of `n` bytes by init of the small machine, in `k` chunks. -/
def smallWrite (n : Word) : ℕ → List Label
  | 0 => [smallCall .ttyWrite 0 0x100000 n]
  | k + 1 => smallWrite n k ++ [resumption, transmitDone 0, clockTick, resumption]

/-- The moves of a TtyWrite of init of the small machine that have been evaluated. -/
theorem smallWrite_moves {C : Kernel → Label → Kernel → Prop}
    (hr : Run step C σ₀ (tr₁ ++ m :: tr₂) σ)
    (hm : m.before.activeProc = some 0 ∧ m.label.call = some .ttyWrite ∧
      ((m.before.callState m.label).reg 0).toInt = 0 ∧
      (m.before.callState m.label).copyIn ((m.before.callState m.label).reg 1)
        ((m.before.callState m.label).reg 2).toInt.toNat = some B)
    (hswitch : ∀ m' ∈ (m :: tr₂).dropLast, m'.before.activeProc = some 0 →
      m'.after.userMode = false)
    (hne : tr₂ ≠ []) : CallsWrite 0 0 B m ∧
      ∀ m' ∈ (m :: tr₂).dropLast, ∀ v, ¬ReturnsWith 0 v m' := by
  have hopen : ∀ m' ∈ (m :: tr₂).dropLast, ∀ v, ¬ReturnsWith 0 v m' := by
    intro m' hm' v hret
    obtain ⟨_, -, hs, -⟩ := hr.reaches_before
      (List.mem_append_right _ (List.mem_of_mem_dropLast hm'))
    have hmode := hswitch m' hm' hret.1
    rw [hret.userMode (step_cases hs)] at hmode
    exact absurd hmode (by simp)
  have hmem : m ∈ (m :: tr₂).dropLast := by
    rw [List.dropLast_cons_of_ne_nil hne]
    exact List.mem_cons_self
  exact ⟨⟨hm.1, hm.2.1, fun hret => hopen m hmem _ ⟨hm.1, hret⟩, hm.2.2.1, hm.2.2.2⟩, hopen⟩

end Kernel

end Yalnix
