import Mathlib.Data.Finset.Basic
import Yalnix.Library.Run
import Yalnix.Model.State

/-!
# The blocks of the pipe buffers

This module embeds what `sys_PipeInit`, `sys_PipeRead`, `sys_PipeWrite` and
`destroy_pipe_info` do to `pipe_buffer`. A pointer is a block and an offset; a block is known
by the number of the call of `malloc` that returned it, so that it is never made twice. A copy
that leaves its block, and a `free` of anything but the start of a block that is allocated, are
counted in `faults` and have no other effect.

The lists of waiting processes are left out, and so is the user memory: a PipeWrite is given
the bytes that it copies. A PipeRead that does not find enough bytes is put into `readers`, and
may go on in any later step.
-/

namespace Yalnix

/-- A pointer; `NULL` is in block 0. -/
structure Ptr where
  block : ℕ
  offset : Int
  deriving DecidableEq

namespace Ptr

def null : Ptr := ⟨0, 0⟩

/-- `q + n`. -/
def add (q : Ptr) (n : Int) : Ptr := ⟨q.block, q.offset + n⟩

@[simp] theorem add_zero (q : Ptr) : q.add 0 = q := by simp [add]

end Ptr

/-- `struct pipe_info`. -/
structure BufferInfo where
  pipeid : Int
  curLen : Int
  pipeBuffer : Ptr

instance : Inhabited BufferInfo := ⟨⟨0, 0, .null⟩⟩

/-- The local variables of a `sys_PipeRead` that waits. -/
structure PipeReader where
  p : ℕ
  pipeId : Int
  len : Int
  exist : Bool

/-- The pipes and the heap. History: `freed`, the blocks that have been freed; `faults`, how often
a block was not used as it may be. -/
structure Buffers where
  pipes : Table BufferInfo
  reclaimList : List ReclaimInfo
  readers : List PipeReader
  made : ℕ
  live : Finset ℕ
  bytes : ℕ → ℕ → Byte
  freed : List ℕ
  faults : ℕ

/-- The calls, with the answers of `malloc`; `again` is the `i`-th waiting PipeRead. -/
inductive PipeOp where
  | init (hint : ℕ) (ok : ℕ → Bool)
  | write (pipeId len : Int) (buf : ℕ → Byte)
  | read (pipeId len : Int) (ok : Bool)
  | again (i : ℕ) (ok : Bool)
  | reclaim (id : Int)

/-- What a call returns, with the bytes that it copies out; or it has to wait. -/
inductive PipeResult where
  | ret (v : Int) (out : List Byte)
  | waits

namespace Buffers

/-- The `n` bytes at `q` lie in a block that is allocated. -/
def InBlock (β : Buffers) (q : Ptr) (n : Int) : Prop :=
  q.block ∈ β.live ∧ 0 ≤ q.offset ∧ 0 ≤ n ∧ q.offset + n ≤ pipeBufSize

instance (β : Buffers) (q : Ptr) (n : Int) : Decidable (β.InBlock q n) :=
  inferInstanceAs (Decidable (_ ∧ _))

/-- An access to the `n` bytes at `q`. -/
def access (β : Buffers) (q : Ptr) (n : Int) : Buffers :=
  if β.InBlock q n then β else { β with faults := β.faults + 1 }

/-- `memcpy` of `n` bytes out of the memory at `q`. -/
def copyFrom (β : Buffers) (q : Ptr) (n : Int) : List Byte × Buffers :=
  ((List.range n.toNat).map fun j => β.bytes q.block (q.offset.toNat + j), β.access q n)

/-- `memcpy` of `n` bytes of `src` to the memory at `q`. -/
def copyTo (β : Buffers) (q : Ptr) (n : Int) (src : ℕ → Byte) : Buffers :=
  { β.access q n with
    bytes := Function.update β.bytes q.block fun j =>
      if q.offset.toNat ≤ j ∧ j < q.offset.toNat + n.toNat then src (j - q.offset.toNat)
      else β.bytes q.block j }

/-- `malloc (PIPE_BUF_SIZE)`. -/
def alloc (β : Buffers) (ok : Bool) : Ptr × Buffers :=
  if ok then
    (⟨β.made + 1, 0⟩, { β with made := β.made + 1, live := insert (β.made + 1) β.live })
  else (.null, β)

/-- `free (q)`. -/
def free (β : Buffers) (q : Ptr) : Buffers :=
  if q = .null then β
  else if q.offset = 0 ∧ q.block ∈ β.live then
    { β with live := β.live.erase q.block, freed := β.freed ++ [q.block] }
  else { β with faults := β.faults + 1 }

/-- The id that the next object gets. -/
def newId (β : Buffers) : Int := β.reclaimList.length + 1

/-- `sys_PipeInit`: the answers of `malloc` are for the pipe, its record, the buffer, the head of
`pipe_wait_list`, the node of `pipe_list` and the node of `reclaim_list`. A buffer that it has got
stays allocated when it fails. -/
def pipeInit (β : Buffers) (hint : ℕ) (ok : ℕ → Bool) : PipeResult × Buffers :=
  if ok 0 = false ∨ ok 1 = false then (.ret error [], β)
  else
    let q := β.alloc (ok 2)
    if q.1 = .null then (.ret error [], q.2)
    else if ok 3 = false then (.ret error [], q.2)
    else if ok 4 = false then (.ret error [], q.2)
    else
      let β := { q.2 with pipes := q.2.pipes.alloc hint ⟨β.newId, 0, q.1⟩ }
      if ok 5 = false then (.ret error [], β)
      else (.ret 0 [], { β with reclaimList := β.reclaimList ++ [⟨β.newId, .pipe⟩] })

/-- `sys_PipeWrite`. -/
def pipeWrite (β : Buffers) (pipeId len : Int) (buf : ℕ → Byte) : PipeResult × Buffers :=
  if pipeId < 0 ∨ len < 0 then (.ret error [], β)
  else
    match β.pipes.find? fun p => p.pipeid = pipeId with
    | none => (.ret error [], β)
    | some a =>
        let p := β.pipes.cell a
        let bufLeft := pipeBufSize - p.curLen
        let byteWrite := if bufLeft < len then bufLeft else len
        let β := β.copyTo (p.pipeBuffer.add p.curLen) byteWrite buf
        (.ret byteWrite [],
          { β with pipes := β.pipes.write a { p with curLen := p.curLen + byteWrite } })

/-- The part of `sys_PipeRead` that takes `len` bytes out of the pipe at `a`. -/
def takeBytes (β : Buffers) (a : ℕ) (len : Int) (ok : Bool) : PipeResult × Buffers :=
  let p := β.pipes.cell a
  let out := β.copyFrom p.pipeBuffer len
  let curLen := p.curLen - len
  -- the pointer moves, and what is freed below is the moved pointer
  let q := p.pipeBuffer.add len
  let tmp := out.2.alloc ok
  let tail := tmp.2.copyFrom q curLen
  let β := (tail.2.copyTo tmp.1 curLen fun j => tail.1.getD j 0).free q
  (.ret 0 out.1, { β with pipes := β.pipes.write a ⟨p.pipeid, curLen, tmp.1⟩ })

/-- The loop of `sys_PipeRead` for the reader `r`. -/
def pipeReadLoop (β : Buffers) (r : PipeReader) (ok : Bool) : PipeResult × Buffers :=
  if r.p ∈ β.pipes.list then
    if (β.pipes.cell r.p).curLen < r.len then (.waits, { β with readers := β.readers ++ [r] })
    else β.takeBytes r.p r.len ok
  else
    -- the block of the `pipe_info` has been freed
    (.waits, { β with faults := β.faults + 1 })

/-- `sys_PipeRead`. -/
def pipeRead (β : Buffers) (pipeId len : Int) (ok : Bool) : PipeResult × Buffers :=
  if pipeId < 0 ∨ len < 0 then (.ret error [], β)
  else
    match β.pipes.find? fun p => p.pipeid = pipeId with
    | none => (.ret error [], β)
    | some a => β.pipeReadLoop ⟨a, pipeId, len, false⟩ ok

/-- `sys_PipeRead` of the reader `r` after `normal_schedule`. -/
def pipeReadAgain (β : Buffers) (r : PipeReader) (ok : Bool) : PipeResult × Buffers :=
  let exist := r.exist || β.pipes.any fun p1 => p1.pipeid = r.pipeId
  if exist then β.pipeReadLoop { r with exist := exist } ok else (.ret error [], β)

/-- `destroy_pipe_info`. -/
def destroyPipeInfo (β : Buffers) (pipeId : Int) : Int × Buffers :=
  if pipeId < 0 then (error, β)
  else
    match β.pipes.find? fun pi => pi.pipeid = pipeId with
    | none => (error, β)
    | some a =>
        let β := β.free (β.pipes.cell a).pipeBuffer
        (0, { β with pipes := β.pipes.free a })

/-- `sys_Reclaim` of an id, if it is not that of a lock or a cvar. -/
def reclaim (β : Buffers) (id : Int) : PipeResult × Buffers :=
  if id < 0 then (.ret error [], β)
  else
    match β.reclaimList.find? fun r => id = r.id with
    | some ⟨_, .pipe⟩ =>
        let d := β.destroyPipeInfo id
        if d.1 ≠ 0 then (.ret error [], d.2)
        else (.ret 0 [], { d.2 with reclaimList := d.2.reclaimList.eraseP fun r => id = r.id })
    | _ => (.ret error [], β)

/-- A call: what it returns, and the pipes and the heap after it. -/
def act (β : Buffers) : PipeOp → Option (PipeResult × Buffers)
  | .init hint ok => some (β.pipeInit hint ok)
  | .write pipeId len buf => some (β.pipeWrite pipeId len buf)
  | .read pipeId len ok => some (β.pipeRead pipeId len ok)
  | .again i ok =>
      β.readers[i]?.map fun r => { β with readers := β.readers.eraseIdx i }.pipeReadAgain r ok
  | .reclaim id => some (β.reclaim id)

/-- The pipes and the heap after a call. -/
def step (β : Buffers) (op : PipeOp) : Option Buffers := (β.act op).map Prod.snd

end Buffers

end Yalnix
