import Yalnix.Model.Process

/-!
# Terminals

This module embeds `sys_TtyRead`, `sys_TtyWrite` and the handlers of the two
terminal interrupts. Terminal numbers outside `0 .. 3` index no entry of
`receive` and `busy_terminal`, although the calls let 4 pass.
-/

namespace Yalnix

namespace Kernel

/-- `t` is an index of `receive` and `busy_terminal`. -/
def isTerminal (t : Int) : Bool := 0 ≤ t && t < numTerminals

/-! ## Reading -/

/-- `sys_TtyRead` after `normal_schedule`. -/
def sysTtyReadResume (σ : Kernel) (p : Pid) (ttyId : Int) : Option (Outcome × Kernel) :=
  if isTerminal ttyId then
    let σ := σ.setPcb p { σ.pcb p with len := σ.stringLen }
    (σ.copyOut (σ.pcb p).buf ((List.range σ.stringLen).map (σ.receive ttyId))).map fun σ =>
      (.ret (σ.pcb p).len, σ)
  else none

/-- `sys_TtyRead`. -/
def sysTtyRead (σ : Kernel) (p : Pid) : Option (Outcome × Kernel) :=
  let ttyId := (σ.reg 0).toInt
  let len := (σ.reg 2).toInt
  let pageNum := pageNumber (downToPage (σ.reg 1) - vmem1Base)
  if ttyId < 0 ∨ ttyId > numTerminals then some (.ret error, σ)
  else if len < 0 then some (.ret error, σ)
  else if (σ.space p).nextHeapPn ≤ pageNum ∧ pageNum ≤ (σ.space p).nextStackPn then
    some (.ret error, σ)
  else if σ.reg 1 < vmem1Base then some (.ret error, σ)
  else
    let σ := σ.setPcb p
      { σ.pcb p with ttyId := ttyId, buf := σ.reg 1, len := len, state := .blockedR }
    let r := σ.ioInsert p
    if r.1 ≠ 0 then some (.ret error, r.2)
    else r.2.block (.ttyRead ttyId) fun σ => σ.sysTtyReadResume p ttyId

/-! ## Writing -/

/-- The bookkeeping of `sys_TtyWrite` before it blocks. -/
def blockWriter (σ : Kernel) (p : Pid) : Int × Kernel :=
  (σ.setPcb p { σ.pcb p with ttyId := (σ.reg 0).toInt, state := .blockedW }).ioInsert p

/-- The busy flag is set and the bytes go to `TtyTransmit`. -/
def ttyTransmit (σ : Kernel) (ttyId : Int) (bytes : List Byte) : Kernel :=
  { σ with
    busyTerminal := Function.update σ.busyTerminal ttyId true
    transmitted := σ.transmitted ++ [(ttyId, bytes)] }

/-- The loop of `sys_TtyWrite`, for `n` turns at most. A turn that does not switch
to another process has found `ready_queue` empty; then the terminal stays busy,
and the loop ends only when `malloc` fails. -/
def ttyWriteLoop : ℕ → Kernel → Pid → Int → Int → Option (Outcome × Kernel)
  | 0, _, _, _, _ => none
  | n + 1, σ, p, ttyId, remainBytes =>
      if remainBytes ≤ 0 then some (.ret (σ.reg 2).toInt, σ)
      else if isTerminal ttyId then
        if σ.busyTerminal ttyId then
          let r := σ.blockWriter p
          if r.1 ≠ 0 then some (.ret error, r.2)
          else r.2.block (.ttyBusy ttyId remainBytes) fun σ =>
            ttyWriteLoop n σ p ttyId remainBytes
        else
          let size := min remainBytes terminalMaxLine
          -- the chunk is always taken from the start of the buffer
          (σ.copyIn (σ.reg 1) size.toNat).bind fun bytes =>
            let r := (σ.ttyTransmit ttyId bytes).blockWriter p
            if r.1 ≠ 0 then some (.ret error, r.2)
            else r.2.block (.ttySent ttyId (remainBytes - size)) fun σ =>
              ttyWriteLoop n σ p ttyId (remainBytes - size)
      else none

/-- `sys_TtyWrite` from the test of its loop on. Each turn asks `malloc` for a
node, so with more turns than answers left a turn repeats for ever. -/
def sysTtyWriteResume (σ : Kernel) (p : Pid) (ttyId remainBytes : Int) :
    Option (Outcome × Kernel) :=
  ttyWriteLoop (σ.mem.mallocs.length + 2) σ p ttyId remainBytes

/-- `sys_TtyWrite`. -/
def sysTtyWrite (σ : Kernel) (p : Pid) : Option (Outcome × Kernel) :=
  let ttyId := (σ.reg 0).toInt
  let pageNum := pageNumber (downToPage (σ.reg 1 - vmem1Base))
  if ttyId < 0 ∨ ttyId > numTerminals then some (.ret error, σ)
  else if (σ.reg 2).toInt < 0 then some (.ret error, σ)
  else if σ.reg 1 < vmem1Base then some (.ret error, σ)
  else if (σ.space p).nextHeapPn ≤ pageNum ∧ pageNum ≤ (σ.space p).nextStackPn then
    some (.ret error, σ)
  else σ.sysTtyWriteResume p ttyId (σ.reg 2).toInt

/-! ## Interrupts -/

/-- What `TtyReceive` and the handler put into `receive[tty_id]`. -/
def receiveLine (σ : Kernel) (ttyId : Int) : Kernel :=
  let bytes := σ.world.line.take terminalMaxLine
  let buf : ℕ → Byte := fun i =>
    if h : i < bytes.length then bytes[i]
    else if i = bytes.length ∧ bytes.length < terminalMaxLine then 0
    else σ.receive ttyId i
  { σ with
    receive := Function.update σ.receive ttyId buf
    stringLen := if bytes.length < terminalMaxLine then bytes.length + 1 else σ.stringLen }

/-- `trap_tty_receive_hdl`. Its walk over `io_list` does not advance, so it never
ends when the first process there is not the one it looks for. -/
def trapTtyReceiveHdl (σ : Kernel) : Option Kernel :=
  let ttyId := σ.uContext.code.toInt
  if isTerminal ttyId then
    let σ := σ.receiveLine ttyId
    match listRemove σ.ioList 1 with
    | none => some σ
    | some (q, l) =>
        if (σ.pcb q).state = .blockedR ∧ ttyId = (σ.pcb q).ttyId then
          some (readyInsert { σ with ioList := l } q).2
        else none
  else none

/-- `trap_tty_transmit_hdl`. -/
def trapTtyTransmitHdl (σ : Kernel) : Option Kernel :=
  let ttyId := σ.uContext.code.toInt
  if isTerminal ttyId then
    let σ := { σ with busyTerminal := Function.update σ.busyTerminal ttyId false }
    let waits : Pid → Bool := fun q => (σ.pcb q).state = .blockedW ∧ ttyId = (σ.pcb q).ttyId
    match σ.ioList.find? waits with
    | none => some σ
    | some q => some (readyInsert { σ with ioList := σ.ioList.eraseP waits } q).2
  else none

end Kernel

end Yalnix
