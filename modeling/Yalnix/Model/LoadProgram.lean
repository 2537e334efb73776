import Yalnix.Model.Scheduler

/-!
# Loading a program

This module embeds `load_program` (LINUX build). The fields of `struct
load_info` are read as `u_long`; what `read` delivers of a segment is part of
the executable, and a segment that does not come whole, or that cannot be
written where it should go, makes the call return `KILL`. The argument vector is
given as the strings it points to; it is `none` when reading it faults.
-/

namespace Yalnix

/-- `KILL`. -/
def kill : Int := 2012

/-- The indices of a user page table. -/
def userPages : List Int := pages 0 1 128

/-! ## Sizes -/

namespace Exe

/-- `text_pg1`. -/
def textPg1 (li : Exe) : Int := ((li.tVaddr - vmem1Base) >>> pageShift).toNat

/-- `data_pg1`. -/
def dataPg1 (li : Exe) : Int := ((li.idVaddr - vmem1Base) >>> pageShift).toNat

/-- `data_npg`. -/
def dataNpg (li : Exe) : Int := (li.idNpg + li.udNpg).toInt

/-- `segment_size` of the text. -/
def textSize (li : Exe) : ℕ := (li.tNpg <<< pageShift).toNat

/-- `segment_size` of the data. -/
def dataSize (li : Exe) : ℕ := (li.idNpg <<< pageShift).toNat

end Exe

/-- `size`: the bytes of the argument strings with their terminating zeros. -/
def argSize (args : List (List Byte)) : ℕ := (args.map fun s => s.length + 1).sum

/-- `cp`: where the argument strings begin. -/
def argStrings (args : List (List Byte)) : Word := vmem1Limit - BitVec.ofNat 32 (argSize args)

/-- `cpp`, and `cp2` after `INITIAL_STACK_FRAME_SIZE`, which is 0, has been taken
off: where `argc` and `argv` begin. -/
def argTable (args : List (List Byte)) : Word :=
  (argStrings args - (BitVec.ofNat 32 args.length + 3 + postArgvNullSpace) * 4) &&& ~~~7

/-- `stack_npg`. -/
def stackNpg (args : List (List Byte)) : Int :=
  pageNumber (vmem1Limit - downToPage (argTable args))

/-- The `int` that is compared with `MAX_PT_LEN`. -/
def Exe.totalNpg (li : Exe) (args : List (List Byte)) : Int :=
  (BitVec.ofInt 32 (stackNpg args + li.dataPg1 + li.dataNpg)).toInt

namespace Kernel

/-! ## Mapping the segments -/

/-- The frames, page table and limits of `proc` after a loop of `load_program`. -/
def setMap (σ : Kernel) (proc : Pid) (r : Bool × Mem × PageTable) (x : Space) : Kernel :=
  { σ with
    mem := r.2.1
    space := Function.update σ.space proc { x with uPageTable := r.2.2 } }

/-- The part of `load_program` that replaces the address space of `proc`: its old
frames are freed, then frames are taken for text, data and stack. -/
def mapProgram (σ : Kernel) (li : Exe) (stackNpg : ℕ) (proc : Pid) : Option (Bool × Kernel) :=
  let x := σ.space proc
  let old := freePages userPages σ.mem x.uPageTable
  (grabPages (pages li.textPg1 1 li.tNpg.toNat) old.1 old.2).bind fun text =>
    if text.1 = false then some (false, σ.setMap proc text x)
    else
      (grabPages (pages li.dataPg1 1 li.dataNpg.toNat) text.2.1 text.2.2).bind fun data =>
        if data.1 = false then some (false, σ.setMap proc data x)
        else
          let x := { x with nextHeapPn := li.dataPg1 + li.dataNpg.toNat }
          (grabPages (pages (userPagetableSize - 1) (-1) stackNpg) data.2.1 data.2.2).bind
            fun stack =>
              if stack.1 = false then some (false, σ.setMap proc stack x)
              else some (true, σ.setMap proc stack
                { x with nextStackPn := userPagetableSize - 1 - stackNpg })

/-! ## Filling the segments -/

/-- The text pages become readable and executable. -/
def protectText (li : Exe) (t : PageTable) : PageTable := fun i =>
  if li.textPg1 ≤ i ∧ i < li.textPg1 + li.tNpg.toNat then { t i with prot := protRead ||| protExec }
  else t i

/-- A `read` of `size` bytes to address `a` from a file that has `bs` left, and
whether it returned `size`. -/
def readSegment (σ : Kernel) (a : Word) (size : ℕ) (bs : List Byte) : Bool × Kernel :=
  match σ.copyOut a (bs.take size) with
  | none => (false, σ)
  | some σ => (size ≤ bs.length, σ)

/-- The argument strings at `cp` and the pointers to them at `cpp`. -/
def copyArgs (σ : Kernel) : Word → Word → List (List Byte) → Option Kernel
  | cpp, _, [] => (σ.storeInt cpp 0).bind fun σ => σ.storeInt (cpp + 4) 0
  | cpp, cp, s :: args =>
      (σ.storeInt cpp cp).bind fun σ =>
        (σ.copyOut cp (s ++ [0])).bind fun σ =>
          copyArgs σ (cpp + 4) (cp + BitVec.ofNat 32 (s.length + 1)) args

/-- The argument list on the new stack. -/
def buildArgs (σ : Kernel) (args : List (List Byte)) : Option Kernel :=
  let cpp := argTable args
  (σ.copyOut cpp (List.replicate (vmem1Limit - cpp).toNat 0)).bind fun σ =>
    (σ.storeInt cpp (BitVec.ofNat 32 args.length)).bind fun σ =>
      σ.copyArgs (cpp + 4) (argStrings args) args

/-- The text pages of `proc` get their final protection. -/
def protect (σ : Kernel) (li : Exe) (proc : Pid) : Kernel :=
  let x := σ.space proc
  σ.setSpace proc { x with uPageTable := protectText li x.uPageTable }

/-- `proc->uctxt.pc = pc`. -/
def setPc (σ : Kernel) (proc : Pid) (pc : Word) : Kernel :=
  let c := σ.pcb proc
  σ.setPcb proc { c with uctxt := { c.uctxt with pc := pc } }

/-- `proc->uctxt.sp = sp`. -/
def setSp (σ : Kernel) (proc : Pid) (sp : Word) : Kernel :=
  let c := σ.pcb proc
  σ.setPcb proc { c with uctxt := { c.uctxt with sp := sp } }

/-- The part of `load_program` that fills the new address space. -/
def fillProgram (σ : Kernel) (li : Exe) (args : List (List Byte)) (proc : Pid) :
    Option (Int × Kernel) :=
  let text := σ.readSegment li.tVaddr li.textSize li.text
  if text.1 = false then some (kill, text.2)
  else
    let data := text.2.readSegment li.idVaddr li.dataSize li.data
    if data.1 = false then some (kill, data.2)
    else
      let bss := List.replicate (li.udEnd - li.idEnd).toNat 0
      ((data.2.protect li proc).copyOut li.idEnd bss).bind fun σ =>
        ((σ.setPc proc li.entry).buildArgs args).map fun σ => (0, σ)

/-- `load_program`. -/
def loadProgram (σ : Kernel) (file : Option Exe) (args : Option (List (List Byte)))
    (proc : Pid) : Option (Int × Kernel) :=
  match file with
  | none => some (error, σ)
  | some li =>
      if li.entry < vmem1Base then some (error, σ)
      else
        args.bind fun args =>
          if li.totalNpg args ≥ maxPtLen then some (error, σ)
          else
            let argbuf := (σ.setSp proc (argTable args)).malloc
            if argbuf.1.ok then
              (argbuf.2.mapProgram li (stackNpg args).toNat proc).bind fun r =>
                if r.1 then r.2.fillProgram li args proc else some (error, r.2)
            else some (error, argbuf.2)

end Kernel

end Yalnix
