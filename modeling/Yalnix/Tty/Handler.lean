import Yalnix.Runs

/-!
# The walks of the terminal handlers

Both handlers look for a process in `io_list` by its position. `transmitWalk` and
`receiveWalk` are their loops as they stand in `trap.c`, for a bounded number of turns:
the first moves on to the next position, the second never does. A handler returns if its
loop does for some number of turns, and it does its work if it then has woken the first
process that waits for it.
-/

namespace Yalnix

open Transition

namespace Kernel

/-- Process `q` is blocked in direction `s` on terminal `t`. -/
def blockedOn (σ : Kernel) (s : ProcState) (t : Int) (q : Pid) : Bool :=
  (σ.pcb q).state = s ∧ t = (σ.pcb q).ttyId

/-! ## The loops -/

/-- The loop of `trap_tty_transmit_hdl` from position `i` on, for `n` turns at most. -/
def transmitWalk (σ : Kernel) (ttyId : Int) : ℕ → Int → Option Kernel
  | 0, _ => none
  | n + 1, i =>
      match listIndex σ.ioList i with
      | none => some σ
      | some q =>
          if σ.blockedOn .blockedW ttyId q then
            (listRemove σ.ioList i).map fun r => (readyInsert { σ with ioList := r.2 } q).2
          else transmitWalk σ ttyId n (i + 1)

/-- The loop of `trap_tty_receive_hdl`, for `n` turns at most. Nothing in it changes the
position or the process that is looked at. -/
def receiveWalk (σ : Kernel) (ttyId : Int) : ℕ → Int → Option Kernel
  | 0, _ => none
  | n + 1, i =>
      match listIndex σ.ioList i with
      | none => some σ
      | some q =>
          if σ.blockedOn .blockedR ttyId q then
            (listRemove σ.ioList i).map fun r => (readyInsert { σ with ioList := r.2 } q).2
          else receiveWalk σ ttyId n i

/-- `trap_tty_transmit_hdl` for the terminal `t`, with `n` turns for its loop. -/
def transmitTurns (σ : Kernel) (t : Int) (n : ℕ) : Option Kernel :=
  transmitWalk { σ with busyTerminal := Function.update σ.busyTerminal t false } t n 1

/-- `trap_tty_receive_hdl` for the terminal `t`, with `n` turns for its loop. -/
def receiveTurns (σ : Kernel) (t : Int) (n : ℕ) : Option Kernel :=
  (σ.receiveLine t).receiveWalk t n 1

variable {σ σ' : Kernel} {t i : Int} {n k : ℕ} {q : Pid}

/-- A loop that ends within `n` turns ends in the same way if it is given more. -/
theorem transmitWalk_mono (h : σ.transmitWalk t n i = some σ') (hk : n ≤ k) :
    σ.transmitWalk t k i = some σ' := by
  induction n generalizing i k with
  | zero => exact absurd h (by simp [transmitWalk])
  | succ n ih =>
      obtain ⟨k, rfl⟩ := Nat.exists_eq_add_of_le' (Nat.one_le_of_lt hk)
      rw [transmitWalk] at h ⊢
      split at h
      · exact h
      · split at h
        · rename_i hq
          rwa [if_pos hq]
        · rename_i hq
          rw [if_neg hq]
          exact ih h (Nat.le_of_succ_le_succ hk)

/-- What the loop has before it behind the processes `l₁` that do not wait for it. -/
theorem transmitWalk_eq (l₁ l₂ : List Pid) (hl : σ.ioList = l₁ ++ l₂) :
    σ.transmitWalk t (l₂.length + 1) (l₁.length + 1) =
      some (match l₂.find? (σ.blockedOn .blockedW t) with
        | none => σ
        | some q => (readyInsert { σ with
            ioList := l₁ ++ l₂.eraseP (σ.blockedOn .blockedW t) } q).2) := by
  induction l₂ generalizing l₁ with
  | nil =>
      rw [transmitWalk, listIndex, if_pos]
      · rfl
      · simp [hl]
  | cons q l₂ ih =>
      have hindex : listIndex σ.ioList (l₁.length + 1) = some q := by
        rw [hl, listIndex, if_neg (by simp)]
        simp
      have hremove : listRemove σ.ioList (l₁.length + 1) = some (q, l₁ ++ l₂) := by
        rw [hl, listRemove, if_neg (by simp)]
        simp [List.eraseIdx_append_of_length_le]
      rw [transmitWalk, hindex]
      dsimp only
      by_cases hq : σ.blockedOn .blockedW t q
      · rw [if_pos hq, hremove, List.find?_cons_of_pos hq, List.eraseP_cons_of_pos hq]
        rfl
      · rw [if_neg hq, List.find?_cons_of_neg hq, List.eraseP_cons_of_neg hq]
        have hnext := ih (l₁ ++ [q]) (by simp [hl])
        rw [List.length_append, List.length_singleton] at hnext
        push_cast at hnext
        rw [List.length_cons, hnext]
        simp

/-- The loop never leaves a first process that does not wait for it. -/
theorem receiveWalk_stuck {l : List Pid} (hl : σ.ioList = q :: l)
    (hq : σ.blockedOn .blockedR t q = false) (n : ℕ) : σ.receiveWalk t n 1 = none := by
  induction n with
  | zero => rfl
  | succ n ih =>
      have hindex : listIndex σ.ioList 1 = some q := by
        rw [hl, listIndex, if_neg (by simp)]
        rfl
      rw [receiveWalk, hindex]
      dsimp only
      rw [if_neg (by simp [hq]), ih]

/-- The loop at a first process that waits for it. -/
theorem receiveWalk_first {l : List Pid} (hl : σ.ioList = q :: l)
    (hq : σ.blockedOn .blockedR t q = true) (n : ℕ) :
    σ.receiveWalk t (n + 1) 1 = some (readyInsert { σ with ioList := l } q).2 := by
  have hindex : listIndex σ.ioList 1 = some q := by
    rw [hl, listIndex, if_neg (by simp)]
    rfl
  rw [receiveWalk, hindex]
  dsimp only
  rw [if_pos hq, hl, listRemove_cons_one]
  rfl

theorem receiveWalk_nil (hl : σ.ioList = []) (n : ℕ) : σ.receiveWalk t (n + 1) 1 = some σ := by
  rw [receiveWalk, hl]
  rfl

/-! ## The handlers of the model -/

/-- With a turn for each process and one more, the loop ends. -/
theorem transmitTurns_eq (σ : Kernel) (t : Int) :
    σ.transmitTurns t (σ.ioList.length + 1) =
      some (match σ.ioList.find? (σ.blockedOn .blockedW t) with
        | none => { σ with busyTerminal := Function.update σ.busyTerminal t false }
        | some q => (readyInsert { σ with
            busyTerminal := Function.update σ.busyTerminal t false
            ioList := σ.ioList.eraseP (σ.blockedOn .blockedW t) } q).2) :=
  transmitWalk_eq [] σ.ioList (t := t)
    (σ := { σ with busyTerminal := Function.update σ.busyTerminal t false }) rfl

theorem trapTtyTransmitHdl_turns (ht : isTerminal σ.uContext.code.toInt = true) :
    σ.transmitTurns σ.uContext.code.toInt (σ.ioList.length + 1) = σ.trapTtyTransmitHdl := by
  rw [transmitTurns_eq]
  unfold trapTtyTransmitHdl
  dsimp only
  rw [if_pos ht]
  change _ = match σ.ioList.find? (σ.blockedOn .blockedW σ.uContext.code.toInt) with
    | none => _
    | some q => _
  cases σ.ioList.find? (σ.blockedOn .blockedW σ.uContext.code.toInt) <;> rfl

/-- The handler ends where the loop does. -/
theorem trapTtyReceiveHdl_turns (ht : isTerminal σ.uContext.code.toInt = true) (n : ℕ) :
    σ.receiveTurns σ.uContext.code.toInt (n + 1) = σ.trapTtyReceiveHdl := by
  unfold trapTtyReceiveHdl receiveTurns
  dsimp only
  rw [if_pos ht]
  cases hl : (σ.receiveLine σ.uContext.code.toInt).ioList with
  | nil => rw [receiveWalk_nil hl, listRemove_nil]
  | cons q l =>
      rw [listRemove_cons_one]
      dsimp only
      split
      · rename_i hq
        exact receiveWalk_first hl (by simpa only [blockedOn, decide_eq_true_eq] using hq) n
      · rename_i hq
        exact receiveWalk_stuck hl (by simpa only [blockedOn, decide_eq_false_iff_not] using hq) _

/-! ## What the handlers should do -/

/-- The first process in `io_list` that `waits`, if there is one, has moved to the end of
the ready queue, and the others are where they were. -/
def MovesFirst (waits : Pid → Bool) (σ σ' : Kernel) : Prop :=
  (∃ q l₁ l₂, σ.ioList = l₁ ++ q :: l₂ ∧ waits q = true ∧ (∀ r ∈ l₁, waits r = false) ∧
      σ'.ioList = l₁ ++ l₂ ∧ σ'.readyQueue = σ.readyQueue ++ [q]) ∨
    (∀ q ∈ σ.ioList, waits q = false) ∧ σ'.ioList = σ.ioList ∧ σ'.readyQueue = σ.readyQueue

theorem readyInsert_queue (σ : Kernel) (q : Pid) :
    (σ.readyInsert q).2.ioList = σ.ioList ∧
      ((σ.readyInsert q).2.readyQueue = σ.readyQueue ++ [q] ↔ σ.mem.malloc.1.ok = true) := by
  unfold readyInsert
  dsimp only
  rw [listInsert_last]
  split <;> simp_all

/-- A process that has been taken out of `io_list` has moved if the queue has a node for it. -/
theorem movesFirst_iff {waits : Pid → Bool} (l₁ : List Pid) {l₂ : List Pid}
    (hl : σ.ioList = l₁ ++ q :: l₂)
    (hq : waits q = true) (h₁ : ∀ r ∈ l₁, waits r = false) (hio : σ'.ioList = l₁ ++ l₂)
    (hready : σ'.readyQueue = σ.readyQueue ++ [q] ↔ σ.mem.malloc.1.ok = true) :
    MovesFirst waits σ σ' ↔ σ.mem.malloc.1.ok = true := by
  constructor
  · rintro (⟨q', k₁, k₂, hk, hq', hk₁, -, hmoved⟩ | ⟨hnone, -⟩)
    · have hfind := List.find?_eq_some_iff_append.2 ⟨hq, l₁, l₂, hl, by simpa using h₁⟩
      have hfind' := List.find?_eq_some_iff_append.2 ⟨hq', k₁, k₂, hk, by simpa using hk₁⟩
      obtain rfl := Option.some.inj (hfind.symm.trans hfind')
      exact hready.1 hmoved
    · exact absurd (hnone q (by simp [hl])) (by simp [hq])
  · intro hok
    exact Or.inl ⟨q, l₁, l₂, hl, hq, h₁, hio, hready.2 hok⟩

/-- The transmit handler does its work unless there is no node for the process it wakes. -/
theorem transmit_iff (σ : Kernel) (t : Int) :
    (∃ n σ', σ.transmitTurns t n = some σ' ∧ MovesFirst (σ.blockedOn .blockedW t) σ σ') ↔
      ((∃ q ∈ σ.ioList, σ.blockedOn .blockedW t q = true) → σ.mem.malloc.1.ok = true) := by
  have hend := transmitTurns_eq σ t
  have hunique : (∃ n σ', σ.transmitTurns t n = some σ' ∧
      MovesFirst (σ.blockedOn .blockedW t) σ σ') ↔
        ∃ σ', σ.transmitTurns t (σ.ioList.length + 1) = some σ' ∧
          MovesFirst (σ.blockedOn .blockedW t) σ σ' := by
    constructor
    · rintro ⟨n, σ', hn, hmoves⟩
      have hmore := transmitWalk_mono hn (le_max_left n (σ.ioList.length + 1))
      have hmore' := transmitWalk_mono hend (le_max_right n (σ.ioList.length + 1))
      obtain rfl := Option.some.inj (hmore.symm.trans hmore')
      exact ⟨_, hend, hmoves⟩
    · rintro ⟨σ', hn, hmoves⟩
      exact ⟨_, σ', hn, hmoves⟩
  rw [hunique]
  cases hfind : σ.ioList.find? (σ.blockedOn .blockedW t) with
  | none =>
      rw [hfind] at hend
      have hnone : ∀ q ∈ σ.ioList, σ.blockedOn .blockedW t q = false := by
        simpa using List.find?_eq_none.1 hfind
      apply iff_of_true
      · exact ⟨_, hend, Or.inr ⟨hnone, rfl, rfl⟩⟩
      · rintro ⟨q, hq, hwaits⟩
        exact absurd hwaits (by simp [hnone q hq])
  | some q =>
      rw [hfind] at hend
      obtain ⟨hq, l₁, l₂, hl, h₁⟩ := List.find?_eq_some_iff_append.1 hfind
      have h₁' : ∀ r ∈ l₁, σ.blockedOn .blockedW t r = false := by
        simpa using h₁
      have herase : σ.ioList.eraseP (σ.blockedOn .blockedW t) = l₁ ++ l₂ := by
        rw [hl, List.eraseP_append_right _ (by simpa using h₁'), List.eraseP_cons_of_pos hq]
      have hmem : q ∈ σ.ioList := by
        rw [hl]
        exact List.mem_append_right l₁ List.mem_cons_self
      obtain ⟨hio, hready⟩ := readyInsert_queue { σ with
        busyTerminal := Function.update σ.busyTerminal t false
        ioList := σ.ioList.eraseP (σ.blockedOn .blockedW t) } q
      have hmoves := movesFirst_iff l₁ hl hq h₁' (hio.trans herase) hready
      constructor
      · rintro ⟨σ', hend', hmoved⟩ -
        obtain rfl := Option.some.inj (hend'.symm.trans hend)
        exact hmoves.1 hmoved
      · intro hok
        exact ⟨_, hend, hmoves.2 (hok ⟨q, hmem, hq⟩)⟩

/-- The receive handler does its work if the first process in `io_list`, if there is one,
is the one to wake, and there is a node for it. -/
theorem receive_iff (σ : Kernel) (t : Int) :
    (∃ n σ', σ.receiveTurns t n = some σ' ∧ MovesFirst (σ.blockedOn .blockedR t) σ σ') ↔
      ∀ q ∈ σ.ioList.head?, σ.blockedOn .blockedR t q = true ∧ σ.mem.malloc.1.ok = true := by
  cases hl : σ.ioList with
  | nil =>
      apply iff_of_true
      · refine ⟨1, _, receiveWalk_nil (σ := σ.receiveLine t) hl 0, Or.inr ⟨?_, rfl, rfl⟩⟩
        simp [hl]
      · simp
  | cons q l =>
      have hl' : (σ.receiveLine t).ioList = q :: l := hl
      rw [List.head?_cons]
      cases hq : σ.blockedOn .blockedR t q with
      | false =>
          apply iff_of_false
          · rintro ⟨n, σ', hn, -⟩
            rw [receiveTurns, receiveWalk_stuck hl' hq] at hn
            exact absurd hn (by simp)
          · intro h
            exact absurd ((h q rfl).1.symm.trans hq) (by simp)
      | true =>
          have hend : ∀ n, σ.receiveTurns t (n + 1) =
              some (readyInsert { σ.receiveLine t with ioList := l } q).2 :=
            receiveWalk_first hl' hq
          obtain ⟨hio, hready⟩ := readyInsert_queue { σ.receiveLine t with ioList := l } q
          have hmoves := movesFirst_iff [] hl hq
            (by simp) hio hready
          constructor
          · rintro ⟨n, σ', hn, hmoved⟩ r hr
            obtain rfl := Option.some.inj hr
            cases n with
            | zero => exact absurd hn (by simp [receiveTurns, receiveWalk])
            | succ n =>
                obtain rfl := Option.some.inj (hn.symm.trans (hend n))
                exact ⟨hq, hmoves.1 hmoved⟩
          · intro h
            exact ⟨1, _, hend 0, hmoves.2 (h q rfl).2⟩

/-- The terminal handlers return and wake the right process exactly as far as
`transmit_iff` and `receive_iff` say. -/
theorem handlers_wake_iff (σ : Kernel) (t : Int) :
    ((∃ n σ', σ.receiveTurns t n = some σ' ∧ MovesFirst (σ.blockedOn .blockedR t) σ σ') ∧
      ∃ n σ', σ.transmitTurns t n = some σ' ∧ MovesFirst (σ.blockedOn .blockedW t) σ σ') ↔
    (∀ q ∈ σ.ioList.head?, σ.blockedOn .blockedR t q = true ∧ σ.mem.malloc.1.ok = true) ∧
      ((∃ q ∈ σ.ioList, σ.blockedOn .blockedW t q = true) → σ.mem.malloc.1.ok = true) :=
  and_congr (receive_iff σ t) (transmit_iff σ t)

/-- Init writes to terminal 0 and sleeps; a line that then arrives at terminal 0 makes the
receive handler walk for ever. -/
theorem receive_never_returns : ∃ σ₀ tr σ, kernelStart smallBoot = some σ₀ ∧
    Run step (fun _ _ _ => True) σ₀ tr σ ∧ σ.userMode = true ∧
      ¬∃ n σ', σ.receiveTurns 0 n = some σ' ∧ MovesFirst (σ.blockedOn .blockedR 0) σ σ' := by
  obtain ⟨σ₀, tr, σ, h₀, hr, huser, hio, hq⟩ := bootExec_state (b := smallBoot)
    (C := fun _ _ _ => True) (t := [smallCall .ttyWrite 0 0x100000 1, resumption])
    (P := fun σ => σ.userMode = true ∧ σ.ioList = [0] ∧ σ.blockedOn .blockedR 0 0 = false)
    (by decide +kernel)
  refine ⟨σ₀, tr, σ, h₀, hr, huser, ?_⟩
  rintro ⟨n, σ', hn, -⟩
  rw [receiveTurns, receiveWalk_stuck (σ := σ.receiveLine 0) hio hq] at hn
  exact absurd hn (by simp)

end Kernel

end Yalnix
