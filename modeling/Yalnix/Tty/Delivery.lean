import Yalnix.Tty.Handler
import Yalnix.Tty.Read

/-!
# The line that wakes a reader

A line lies in `receive` of its terminal and its length in the one variable `string_len`,
and a reader that the line has woken looks at both only when it runs again. `KeepsReads`
says that an interrupt does not come between: then what the reader finds is the line.
-/

namespace Yalnix

open Transition

/-- The terminal whose receive interrupt is raised. -/
def Label.arrival (l : Label) : Option Int :=
  match l.event with
  | .trap u => if u.vector = 5 then some u.code.toInt else none
  | _ => none

/-- The bytes that `TtyReceive` copies. -/
def Label.typed (l : Label) : List Byte := l.world.line.take terminalMaxLine

/-- What the handler leaves in `receive`: a line that is not of full length is ended. -/
def endLine (bytes : List Byte) : List Byte :=
  if bytes.length < terminalMaxLine then bytes ++ [0] else bytes

/-- The terminal from which a process at `k` reads. -/
def readsFrom : KernelContext → Option Int
  | .ttyRead t => some t
  | _ => none

namespace Kernel

variable {σ σ' : Kernel} {l : Label} {p q : Pid} {o : Outcome} {t : Int} {L : List Byte}
  {tr : List (Move Kernel Label)}

/-- The first `n` bytes in `receive` of terminal `t`. -/
def received (σ : Kernel) (t : Int) (n : ℕ) : List Byte := (List.range n).map (σ.receive t)

/-! ## Conditions and results -/

/-- A line that wakes a reader fits into what it has asked for, and `string_len` holds its
length afterwards. A line that comes while a reader that has been woken is still ready
leaves `string_len` as it is, and on the terminal of that reader the bytes too. -/
def KeepsReads (σ : Kernel) (l : Label) : Prop :=
  ∀ t ∈ l.arrival,
    (∀ q ∈ σ.ioList.head?, σ.blockedOn .blockedR t q = true →
      (l.typed.length < terminalMaxLine ∨ σ.stringLen = terminalMaxLine) ∧
        ((endLine l.typed).length : Int) ≤ (σ.pcb q).len) ∧
    ∀ q ∈ σ.readyQueue, ∀ r ∈ readsFrom (σ.pcb q).kctxt,
      (l.typed.length < terminalMaxLine → l.typed.length + 1 = σ.stringLen) ∧
        (r = t → (endLine l.typed).take σ.stringLen = σ.received t σ.stringLen)

instance (σ : Kernel) (l : Label) : Decidable (σ.KeepsReads l) :=
  inferInstanceAs (Decidable (∀ t ∈ _, _ ∧ ∀ q ∈ _, ∀ r ∈ _, _ ∧ _))

/-- In this move the line `L` arrives at terminal `t` and takes process `p` out of
`io_list`. -/
def LineWakes (t : Int) (p : Pid) (L : List Byte) (m : Move Kernel Label) : Prop :=
  m.label.arrival = some t ∧ m.label.typed = L ∧ p ∈ m.before.ioList ∧ p ∉ m.after.ioList

instance (t : Int) (p : Pid) (L : List Byte) (m : Move Kernel Label) :
    Decidable (LineWakes t p L m) := inferInstanceAs (Decidable (_ ∧ _))

/-- The line `L` from terminal `t` has woken process `p`, which has not run since. -/
def LineWoken (t : Int) (p : Pid) (L : List Byte) (tr : List (Move Kernel Label)) : Prop :=
  Since (LineWakes t p L) (fun m => m.before.activeProc ≠ some p) tr

/-- The call that this move continues is given the line `L`, cut to what it asks for: it
finds these bytes in its buffer and returns their number. -/
def Delivers (L : List Byte) (m : Move Kernel Label) : Prop :=
  let σ := m.before.callState m.label
  let cut := (endLine L).take (σ.reg 2).toInt.toNat
  m.before.outcome m.label = some (.ret cut.length) ∧
    σ.writeBytes (σ.reg 1) cut m.before.phys = some m.after.phys

/-! ## The line in `receive` -/

theorem length_endLine (L : List Byte) :
    (endLine L).length = if L.length < terminalMaxLine then L.length + 1 else L.length := by
  unfold endLine
  split <;> simp

theorem receiveLine_received (σ : Kernel) (t : Int) (n : ℕ)
    (hn : n ≤ (endLine (σ.world.line.take terminalMaxLine)).length) :
    (σ.receiveLine t).received t n = (endLine (σ.world.line.take terminalMaxLine)).take n := by
  apply List.ext_getElem
  · simp [received, hn]
  · intro i hi hi'
    have hin : i < n := by simpa [received] using hi
    rw [length_endLine] at hn
    simp only [received, receiveLine, Function.update_self, List.getElem_map,
      List.getElem_range, List.getElem_take, endLine]
    split at hn
    · rename_i hlen
      simp only [hlen, if_true]
      by_cases hlt : i < (σ.world.line.take terminalMaxLine).length
      · rw [dif_pos hlt, List.getElem_append_left hlt]
        simp
      · rw [dif_neg hlt, List.getElem_append_right (by omega), if_pos ⟨by omega, trivial⟩]
        simp
    · rename_i hlen
      simp only [hlen, if_false]
      rw [dif_pos (by omega)]
      simp

/-- A step without an arrival leaves the lines alone. -/
theorem step_lines (h : Steps σ l σ') (hl : l.arrival = none) :
    σ'.receive = σ.receive ∧ σ'.stringLen = σ.stringLen := by
  have hsame : ∀ {vs : List View}, Touches vs σ σ' → View.lines ∉ vs →
      σ'.receive = σ.receive ∧ σ'.stringLen = σ.stringLen := fun ht hvs =>
    ht.same .lines hvs
  cases h with
  | store hl' hu h => exact hsame ((begin_touches σ l).seq (copyOut_touches h)) (by simp)
  | @call u p c o τ hl' hu hv hp hc h =>
      exact hsame (call_touches (enter_touches σ l u) (sysCall_touches h) o)
        (by cases c <;> simp [callViews])
  | @clock u τ hl' hu hv h =>
      exact hsame ((enter_touches σ l u).seq (trapClockHdl_touches h)) (by simp)
  | @abort u p o τ hl' hu hv hp h =>
      exact hsame (call_touches (enter_touches σ l u) (sysExit_touches h) o) (by simp)
  | @grow u p τ hl' hu hv hp hfit h =>
      exact hsame ((enter_touches σ l u).seq
        ((growUserStack_touches h).seq (returnUser_touches τ))) (by simp)
  | @receive u τ hl' hu hv h => simp [Label.arrival, hl', hv] at hl
  | @transmit u τ hl' hu hv h =>
      exact hsame ((enter_touches σ l u).seq
        ((trapTtyTransmitHdl_touches h).seq (returnUser_touches τ))) (by simp)
  | disk hl' hu hv =>
      exact hsame ((enter_touches σ l _).seq (returnUser_touches _)) (by simp)
  | @resume p o τ hl' hu hp h =>
      exact hsame (call_touches (restore_touches σ l p) (resumeCall_touches h) o)
        (by cases (σ.pcb p).kctxt <;> simp [resumeViews])

/-- What a line that arrives at terminal `t` has done. -/
structure Arrives (σ σ' : Kernel) (l : Label) (t : Int) : Prop where
  stringLen : σ'.stringLen =
    if l.typed.length < terminalMaxLine then l.typed.length + 1 else σ.stringLen
  mine : ∀ n ≤ (endLine l.typed).length, σ'.received t n = (endLine l.typed).take n
  others : ∀ r ≠ t, σ'.receive r = σ.receive r
  pcb : σ'.pcb = σ.pcb
  activeProc : σ'.activeProc = σ.activeProc
  live : σ'.live = σ.live
  wakes : σ'.ioList = σ.ioList ∨ ∃ q, σ.ioList = q :: σ'.ioList ∧
    σ.blockedOn .blockedR t q = true ∧ σ'.readyQueue = σ.readyQueue ++ [q]

theorem Steps.arrives (h : Steps σ l σ') (ha : σ.Allocates l σ') (ht : l.arrival = some t) :
    Arrives σ σ' l t := by
  cases h with
  | @receive u τ hl hu hv h =>
      obtain rfl : u.code.toInt = t := by simpa [Label.arrival, hl, hv] using ht
      have hline : ∀ n ≤ (endLine l.typed).length,
          (((σ.begin l).enter u).receiveLine u.code.toInt).received u.code.toInt n =
            (endLine l.typed).take n := receiveLine_received ((σ.begin l).enter u) u.code.toInt
      have hothers : ∀ r ≠ u.code.toInt,
          (((σ.begin l).enter u).receiveLine u.code.toInt).receive r = σ.receive r :=
        fun r hr => Function.update_of_ne hr ..
      unfold trapTtyReceiveHdl at h
      dsimp only at h
      split at h
      swap
      · exact absurd h (by simp)
      have hio : (((σ.begin l).enter u).receiveLine
          ((σ.begin l).enter u).uContext.code.toInt).ioList = σ.ioList := rfl
      rw [hio] at h
      cases hlist : σ.ioList with
      | nil =>
          rw [hlist, listRemove_nil] at h
          obtain rfl := Option.some.inj h
          exact ⟨rfl, hline, hothers, rfl, rfl, rfl, .inl rfl⟩
      | cons q rest =>
          rw [hlist, listRemove_cons_one] at h
          dsimp only at h
          split at h
          · rename_i hq
            obtain rfl := Option.some.inj h
            rw [readyInsert_ok (by exact ha.begin)]
            exact ⟨rfl, hline, hothers, rfl, rfl, rfl, .inr ⟨q, hlist, decide_eq_true hq, rfl⟩⟩
          · exact absurd h (by simp)
  | store hl => simp [Label.arrival, hl] at ht
  | call hl _ hv => simp [Label.arrival, hl, hv] at ht
  | clock hl _ hv => simp [Label.arrival, hl, hv] at ht
  | abort hl _ hv =>
      rw [Label.arrival, hl] at ht
      dsimp only at ht
      rw [if_neg fun hfive => hv (by simp [hfive])] at ht
      exact absurd ht (by simp)
  | grow hl _ hv => simp [Label.arrival, hl, hv] at ht
  | transmit hl _ hv => simp [Label.arrival, hl, hv] at ht
  | disk hl _ hv => simp [Label.arrival, hl, hv] at ht
  | resume hl => simp [Label.arrival, hl] at ht

/-! ## Readers that have been woken -/

/-- Every process in `io_list` is in TtyRead or in TtyWrite. -/
def TtyCallers (σ : Kernel) : Prop :=
  ∀ q ∈ σ.ioList, (∃ t, (σ.pcb q).kctxt = .ttyRead t) ∨ ∃ t r, Writes t r (σ.pcb q).kctxt

theorem TtyCallers.step (h : σ.TtyCallers) (hw : σ.Writers) (hinv : σ.Placed) (hst : σ.Stacked)
    (hs : Steps σ l σ') (ha : σ.Allocates l σ') (hi : σ.IdlePauses l) : σ'.TtyCallers := by
  intro q hq
  rcases (tty_step hinv hw hs ha hi).mem_or hq with hold | hread | ⟨t, r, -, -, hk⟩ | ⟨t, r, -, hk⟩
  · rw [(io_keeps hinv hst hs hold).2]
    exact h q hold
  · exact .inl hread
  · exact .inr ⟨t, r, .inl hk⟩
  · exact .inr ⟨t, r, .inr hk⟩

/-- A process that waits to read from terminal `t` is in a TtyRead from `t`. -/
theorem TtyCallers.reads (h : σ.TtyCallers) (hr : σ.Readers) (hw : σ.Writers)
    (hq : q ∈ σ.ioList) (hb : σ.blockedOn .blockedR t q = true) :
    (σ.pcb q).kctxt = .ttyRead t := by
  obtain ⟨hstate, htty⟩ := of_decide_eq_true hb
  rcases h q hq with ⟨r, hk⟩ | ⟨r, n, hk⟩
  · rw [hk, htty, (hr.waits q hq r hk).2]
  · exact absurd (hstate.symm.trans (hw.awaits q hq r n hk).1) (by simp)

/-- Process `q` is about to continue a TtyRead from terminal `t` and will find `L` there. -/
structure Finds (σ : Kernel) (t : Int) (q : Pid) (L : List Byte) : Prop where
  due : σ.Due q (.ttyRead t)
  length : σ.stringLen = (endLine L).length
  bytes : σ.received t σ.stringLen = endLine L
  fits : ((endLine L).length : Int) ≤ (σ.pcb q).len

/-- The line that wakes a reader is what it finds. -/
theorem Finds.wakes (hr : σ.Readers) (hw : σ.Writers) (hc : σ.TtyCallers) (hs : Steps σ l σ')
    (ha : σ.Allocates l σ') (hk : σ.KeepsReads l) (h : LineWakes t q L ⟨σ, l, σ'⟩) :
    σ'.Finds t q L := by
  obtain ⟨ht, rfl, hq, hout⟩ := h
  have harr := hs.arrives ha ht
  rcases harr.wakes with hio | ⟨q', hio, hb, hready⟩
  · exact absurd (hio ▸ hq) hout
  obtain rfl : q = q' := by
    rw [hio] at hq
    exact (List.mem_cons.1 hq).resolve_right hout
  obtain ⟨hfull, hfits⟩ := (hk t ht).1 q (by simp [hio]) hb
  have hlen : σ'.stringLen = (endLine l.typed).length := by
    rw [harr.stringLen, length_endLine]
    split
    · rfl
    · rename_i hlong
      have htyped : l.typed.length ≤ terminalMaxLine := List.length_take_le ..
      rw [hfull.resolve_left hlong]
      omega
  refine ⟨⟨?_, .inl (by simp [hready])⟩, hlen, ?_, by rwa [harr.pcb]⟩
  · rw [harr.pcb]
    exact hc.reads hr hw hq hb
  · rw [hlen, harr.mine _ le_rfl, List.take_length]

/-- No interrupt that keeps the reads changes what a reader finds. -/
theorem Finds.step (h : σ.Finds t q L) (hinv : σ.Placed) (hst : σ.Stacked)
    (hs : Steps σ l σ') (ha : σ.Allocates l σ') (hi : σ.IdlePauses l) (hk : σ.KeepsReads l)
    (hq : σ.activeProc ≠ some q) : σ'.Finds t q L := by
  have hdue := h.due.step hinv hst hs ha hi (by simp) hq
  have hready : q ∈ σ.readyQueue := h.due.place.resolve_right fun hr => hq hr.1
  have hnew : q ≠ σ.nextPid := by
    rintro rfl
    exact absurd ((hst.unborn _ le_rfl).symm.trans h.due.kctxt) (by simp)
  have hfits : ((endLine L).length : Int) ≤ (σ'.pcb q).len := by
    rw [(step_buffer hs hq hnew).2]
    exact h.fits
  cases harr : l.arrival with
  | none =>
      obtain ⟨hreceive, hlen⟩ := step_lines hs harr
      refine ⟨hdue, hlen.trans h.length, ?_, hfits⟩
      rw [received, hreceive, hlen]
      exact h.bytes
  | some r =>
      have hline := hs.arrives ha harr
      obtain ⟨hshort, hsame⟩ := (hk r harr).2 q hready t (by simp [h.due.kctxt, readsFrom])
      have hlen : σ'.stringLen = σ.stringLen := by
        rw [hline.stringLen]
        split
        · rename_i hlt
          exact hshort hlt
        · rfl
      refine ⟨hdue, hlen.trans h.length, ?_, hfits⟩
      by_cases hr : t = r
      · subst hr
        have htake := hsame rfl
        have hle : σ.stringLen ≤ (endLine l.typed).length := by
          have hcount := congrArg List.length htake
          simp only [List.length_take, received, List.length_map, List.length_range] at hcount
          omega
        rw [hlen, hline.mine _ hle, htake, h.bytes]
      · rw [hlen, received, hline.others t hr]
        exact h.bytes

/-- A reader that continues is given what it finds. -/
theorem Finds.delivers (h : σ.Finds t q L) (hr : σ.Readers) (hinv : σ.Placed)
    (hs : Steps σ l σ') (hq : σ.activeProc = some q) : Delivers L ⟨σ, l, σ'⟩ := by
  obtain ⟨hl, o, τ, hcall, rfl⟩ := h.due.resume hinv hs hq
  have hmode : σ.userMode = false := (h.due.place.resolve_left (hinv.not_ready hq)).2
  have hask : Asked (σ.pcb q) t (σ.pcb q).uctxt := by
    refine hr.asked q (hinv.live_of_active hq) ?_ t h.due.kctxt
    rintro ⟨-, hm⟩
    exact absurd (hm.symm.trans hmode) (by simp)
  have hstate : σ.callState l = (σ.begin l).restore q := by
    simp [callState, hl, hq]
  obtain ⟨rfl, hphys⟩ := sysTtyReadResume_ends (σ := (σ.begin l).restore q) hask hcall
  have hlong : ((endLine L).length : Int) ≤ ((σ.pcb q).uctxt.regs 2).toInt :=
    hask.len ▸ h.fits
  have hcut : (endLine L).take ((σ.callState l).reg 2).toInt.toNat = endLine L := by
    rw [hstate]
    apply List.take_of_length_le
    change _ ≤ ((σ.pcb q).uctxt.regs 2).toInt.toNat
    omega
  have hbytes : (List.range σ.stringLen).map (σ.receive t) = endLine L := h.bytes
  unfold Delivers
  dsimp only
  rw [hcut, hstate]
  constructor
  · rw [← h.length]
    exact outcome_resume hl hq (h.due.kctxt ▸ hcall)
  · rw [← hbytes]
    exact hphys

/-! ## All runs -/

variable {b : Boot} {σ₀ : Kernel}

theorem ttyCallers_of_run (hok : ∀ a ∈ b.procMallocs, a.ok = true) (h₀ : kernelStart b = some σ₀)
    (h : Run Kernel.step (fun σ l σ' => σ.Allocates l σ' ∧ σ.IdlePauses l) σ₀ tr σ) :
    σ.TtyCallers := by
  induction h with
  | start =>
      intro q hq
      have hboot := kernelStart_booted h₀
      have hblocked := io_blocked (σ := σ₀) q
      have hqueued := hboot.queued q
      have hcount := List.count_pos_iff.2 hq
      rw [queued] at hqueued
      omega
  | snoc hr hs hc ih =>
      obtain ⟨hinv, hst⟩ := stacked_of_run hok h₀ hr
      exact ih.step (writers_of_run hok h₀ hr) hinv hst (step_cases hs) hc.1 hc.2

theorem LineWoken.finds (hok : ∀ a ∈ b.procMallocs, a.ok = true) (h₀ : kernelStart b = some σ₀)
    (h : Run step (fun σ l σ' => (σ.Allocates l σ' ∧ σ.IdlePauses l) ∧ σ.KeepsReads l) σ₀ tr σ)
    (hwoken : LineWoken t p L tr) : σ.Finds t p L := by
  induction h with
  | start => exact absurd hwoken not_since_nil
  | @snoc tr σ σ' l hr hs hc ih =>
      obtain ⟨⟨ha, hi⟩, hk⟩ := hc
      have hrun := hr.mono fun _ _ _ _ hc => hc.1
      obtain ⟨hinv, hst⟩ := stacked_of_run hok h₀ hrun
      rcases since_snoc.1 hwoken with hwakes | ⟨hold, hact⟩
      · exact .wakes (readers_of_run hok h₀ hrun) (writers_of_run hok h₀ hrun)
          (ttyCallers_of_run hok h₀ hrun) (step_cases hs) ha hk hwakes
      · exact (ih hold).step hinv hst (step_cases hs) ha hi hk hact

/-- In every run in which allocations succeed, idle only pauses and interrupts keep the
reads, a process that a line has woken in TtyRead is given this line. -/
theorem run_delivers (hok : ∀ a ∈ b.procMallocs, a.ok = true) (h₀ : kernelStart b = some σ₀)
    (h : Run step (fun σ l σ' => (σ.Allocates l σ' ∧ σ.IdlePauses l) ∧ σ.KeepsReads l) σ₀ tr σ) :
    ∀ tr₁ m tr₂ t p L, tr = tr₁ ++ m :: tr₂ → LineWoken t p L tr₁ →
      m.before.activeProc = some p → Delivers L m := by
  intro tr₁ m tr₂ t p L htr hwoken hp
  obtain ⟨hr, hs, -⟩ := h.upTo htr
  have hrun := hr.mono fun _ _ _ _ hc => hc.1
  exact (hwoken.finds hok h₀ hr).delivers (readers_of_run hok h₀ hrun)
    (stacked_of_run hok h₀ hrun).1 (step_cases hs) hp

section Small

variable {C : Kernel → Label → Kernel → Prop} [∀ σ l σ', Decidable (C σ l σ')]

/-- A run, after `ls₁`, in which `w` wakes process `p`, which the steps `ls₂` leave ready
and which runs with `l`. -/
theorem bootExec_woken (ls₁ ls₂ : List Label) {w : Label} {P : Kernel → Kernel → Prop}
    [∀ σ σ', Decidable (P σ σ')]
    (h : ((bootExec b C ls₁).bind fun σ => (σ.step w).bind fun σ₁ =>
      if C σ w σ₁ ∧ LineWakes t p L ⟨σ, w, σ₁⟩ then
        (exec step (fun σ l σ' => C σ l σ' ∧ σ.activeProc ≠ some p) σ₁ ls₂).bind fun σ₂ =>
          (σ₂.step l).map fun σ' =>
            decide (C σ₂ l σ' ∧ σ₂.activeProc = some p ∧ P σ₂ σ')
      else none) = some true) :
    ∃ σ₀ tr σ σ', kernelStart b = some σ₀ ∧ Run step C σ₀ (tr ++ [⟨σ, l, σ'⟩]) σ' ∧
      LineWoken t p L tr ∧ σ.activeProc = some p ∧ P σ σ' := by
  obtain ⟨σ, hσ, h⟩ := Option.bind_eq_some_iff.1 h
  obtain ⟨σ₁, hw, h⟩ := Option.bind_eq_some_iff.1 h
  obtain ⟨σ₀, tr, h₀, hr, -⟩ := bootExec_some hσ
  split at h
  swap
  · exact absurd h (by simp)
  rename_i hwakes
  obtain ⟨σ₂, hσ₂, h⟩ := Option.bind_eq_some_iff.1 h
  obtain ⟨σ', hs, hP⟩ := Option.map_eq_some_iff.1 h
  obtain ⟨hC, hp, hP⟩ := of_decide_eq_true hP
  obtain ⟨tr₂, hr₂, -⟩ := exec_run hσ₂
  have hidle : ∀ m ∈ tr₂, m.before.activeProc ≠ some p := fun m hm =>
    (hr₂.reaches_before hm).choose_spec.2.2.2
  have hrun := (hr.snoc hw hwakes.1).trans (hr₂.mono fun _ _ _ _ hc => hc.1)
  refine ⟨σ₀, _, σ₂, σ', h₀, hrun.snoc hs hC, ⟨tr, _, tr₂, ?_, hwakes.2, hidle⟩, hp, hP⟩
  rw [List.append_assoc]
  rfl

end Small

/-- Init of the small machine asks for five bytes and is given the line of two that
arrives, although a line of the same length comes from terminal 1 before init runs. -/
theorem run_delivers_twice : ∃ σ₀ tr m σ, kernelStart smallBoot = some σ₀ ∧
    Run step (fun σ l σ' => (σ.Allocates l σ' ∧ σ.IdlePauses l) ∧ σ.KeepsReads l) σ₀
      (tr ++ [m]) σ ∧ LineWoken 0 0 [97, 98] tr ∧ m.before.activeProc = some 0 ∧
    Delivers [97, 98] m := by
  obtain ⟨σ₀, tr, σ, σ', h₀, hr, hwoken, hp, -⟩ := bootExec_woken
    [smallCall .ttyRead 0 0x100000 5, resumption] [lineArrives 1 [99, 100], clockTick]
    (b := smallBoot) (t := 0) (p := 0) (L := [97, 98]) (l := resumption)
    (C := fun σ l σ' => (σ.Allocates l σ' ∧ σ.IdlePauses l) ∧ σ.KeepsReads l)
    (w := lineArrives 0 [97, 98]) (P := fun _ _ => True) (by decide +kernel)
  exact ⟨σ₀, tr, _, σ', h₀, hr, hwoken, hp,
    run_delivers (by decide) h₀ hr tr _ [] 0 0 [97, 98] rfl hwoken hp⟩

/-- A line of three bytes at terminal 1 makes init return four bytes of a line of two. -/
theorem run_delivers_other : ∃ σ₀ tr m σ, kernelStart smallBoot = some σ₀ ∧
    Run step (fun σ l σ' => σ.Allocates l σ' ∧ σ.IdlePauses l) σ₀ (tr ++ [m]) σ ∧
    LineWoken 0 0 [97, 98] tr ∧ m.before.activeProc = some 0 ∧ ¬Delivers [97, 98] m := by
  obtain ⟨σ₀, tr, σ, σ', h₀, hr, hwoken, hp, ho, hlen⟩ := bootExec_woken
    [smallCall .ttyRead 0 0x100000 5, resumption] [lineArrives 1 [120, 121, 122], clockTick]
    (b := smallBoot) (t := 0) (p := 0) (L := [97, 98]) (l := resumption)
    (C := fun σ l σ' => σ.Allocates l σ' ∧ σ.IdlePauses l) (w := lineArrives 0 [97, 98])
    (P := fun σ _ => σ.outcome resumption = some (.ret 4) ∧
      ((endLine [97, 98]).take ((σ.callState resumption).reg 2).toInt.toNat).length = 3)
    (by decide +kernel)
  refine ⟨σ₀, tr, _, σ', h₀, hr, hwoken, hp, ?_⟩
  rintro ⟨hret, -⟩
  rw [hlen, ho] at hret
  exact absurd hret (by simp)

end Kernel

end Yalnix
