import Yalnix.Model.State

/-!
# Frames, lists and user memory

This module embeds `mem.c`, `list.c`, `SetKernelBrk` and the loops that map,
free and copy pages. `malloc` lies outside the source: it may pass any addresses
to `SetKernelBrk` and then succeed or fail, as the next entry of `mallocs` says.

A loop over page numbers is a recursion over the list of the numbers it visits.
An index outside `u_page_table` has no defined effect, so the loop yields `none`.
-/

namespace Yalnix

/-! ## Frames and the kernel heap -/

/-- `grab_a_frame`: the number of a frame, or 0 when there is none. -/
def Mem.grabAFrame (m : Mem) : ℕ × Mem :=
  match m.freeFrames with
  | [] => (0, { m with refused := m.refused + 1 })
  | f :: fs => (f, { m with freeFrames := fs, refused := m.refused + if f = 0 then 1 else 0 })

/-- The loop of `SetKernelBrk` over `n` pages from page `i`. -/
def Mem.mapKernelPages : ℕ → Int → Mem → Bool × Mem
  | 0, _, m => (true, m)
  | n + 1, i, m =>
      let r := m.grabAFrame
      if r.1 = 0 then (false, r.2)
      else mapKernelPages n (i + 1) { r.2 with
        krnlPageTable := Function.update r.2.krnlPageTable i ⟨true, protWrite ||| protRead, r.1⟩ }

/-- `SetKernelBrk`. -/
def Mem.setKernelBrk (m : Mem) (addr : Word) : Int × Mem :=
  if m.vmemEnabled = false then
    (0, if addr > m.kernelBrk then { m with kernelBrk := addr } else m)
  else if addr > m.kernelBrk then
    if addr.toInt ≥ kernelStackBase then (error, m)
    else
      let pnEnd := pageNumber addr
      let pnStart := pageNumber m.kernelBrk
      let r := m.mapKernelPages (pnEnd - pnStart).toNat pnStart
      if r.1 then (0, { r.2 with kernelBrk := addr }) else (error, r.2)
  else (0, m)

/-- `malloc`: what it grows the heap by, and then what it returns. -/
def Mem.malloc (m : Mem) : Malloc × Mem :=
  match m.mallocs with
  | [] => (default, m)
  | a :: as =>
      (a, a.grow.foldl (fun m addr => (m.setKernelBrk (addr.setWidth 32)).2)
        { m with mallocs := as })

/-- `list_insert (&free_frames, 1, pfn)`; without memory for a node the frame is
lost. -/
def Mem.freeFrame (m : Mem) (pfn : ℕ) : Mem :=
  let r := m.malloc
  if r.1.ok then { r.2 with freeFrames := pfn :: r.2.freeFrames } else r.2

/-! ## `list.c` -/

section Lists

variable {α : Type*}

/-- `list_insert`. -/
def listInsert (l : List α) (location : Int) (data : α) (m : Mem) : Int × List α × Mem :=
  if location > l.length + 1 ∨ location < 1 then (error, l, m)
  else
    let r := m.malloc
    if r.1.ok then (0, l.insertIdx (location - 1).toNat data, r.2) else (error, l, r.2)

/-- `list_remove`: the element and the list without it. -/
def listRemove (l : List α) (location : Int) : Option (α × List α) :=
  if location > l.length ∨ location < 1 then none
  else l[(location - 1).toNat]?.map fun x => (x, l.eraseIdx (location - 1).toNat)

/-- `list_index`. -/
def listIndex (l : List α) (location : Int) : Option α :=
  if location > l.length ∨ location < 1 then none else l[(location - 1).toNat]?

/-- Insertion behind the last element. -/
theorem listInsert_last (l : List α) (data : α) (m : Mem) :
    listInsert l (l.length + 1) data m =
      if m.malloc.1.ok then (0, l ++ [data], m.malloc.2) else (error, l, m.malloc.2) := by
  have hloc : ¬((l.length : Int) + 1 > l.length + 1 ∨ (l.length : Int) + 1 < 1) := by omega
  have hidx : ((l.length : Int) + 1 - 1).toNat = l.length := by omega
  have hins : l.insertIdx l.length data = l ++ [data] := by
    simp
  rw [listInsert, if_neg hloc, hidx, hins]

@[simp] theorem listRemove_nil (location : Int) : listRemove ([] : List α) location = none := by
  unfold listRemove
  split
  · rfl
  · rw [List.getElem?_nil, Option.map_none]

@[simp] theorem listRemove_cons_one (x : α) (l : List α) :
    listRemove (x :: l) 1 = some (x, l) := by
  have hloc : ¬((1 : Int) > (x :: l).length ∨ (1 : Int) < 1) := by
    rw [List.length_cons]
    omega
  rw [listRemove, if_neg hloc]
  rfl

end Lists

/-! ## Page tables -/

/-- The page numbers `start, start + step, ..`, `n` of them. -/
def pages (start step : Int) : ℕ → List Int
  | 0 => []
  | n + 1 => start :: pages (start + step) step n

/-- A loop that takes a frame for each page and stops at the first that it does
not get: the loop of `sys_Brk` and the three of `load_program`. -/
def grabPages : List Int → Mem → PageTable → Option (Bool × Mem × PageTable)
  | [], m, t => some (true, m, t)
  | i :: is, m, t =>
      let r := m.grabAFrame
      if r.1 = 0 then some (false, r.2, t)
      else if inTable i then
        grabPages is r.2 (Function.update t i ⟨true, protRead ||| protWrite, r.1⟩)
      else none

/-- The loop of `trap_memory_hdl`: an entry is valid before it has a frame, and
it keeps the 0 that `grab_a_frame` fails with. -/
def growStack : List Int → Mem → PageTable → Option (Mem × PageTable)
  | [], m, t => some (m, t)
  | i :: is, m, t =>
      if inTable i then
        let r := m.grabAFrame
        growStack is r.2 (Function.update t i ⟨true, protWrite ||| protRead, r.1⟩)
      else none

/-- The loops of `sys_Exit` and `load_program` that give back the frames of the
valid entries. -/
def freePages : List Int → Mem → PageTable → Mem × PageTable
  | [], m, t => (m, t)
  | i :: is, m, t =>
      if (t i).valid then
        freePages is (m.freeFrame (t i).pfn)
          (Function.update t i { t i with valid := false, prot := 0 })
      else freePages is m t

/-- The loop of `sys_Fork` that copies the pages of `parent`. -/
def copyPages (parent : PageTable) : List Int → Mem → PageTable → (ℕ → ℕ → Byte) →
    Bool × Mem × PageTable × (ℕ → ℕ → Byte)
  | [], m, t, phys => (true, m, t, phys)
  | i :: is, m, t, phys =>
      if (parent i).valid then
        let r := m.grabAFrame
        -- the entry is already valid when the frame turns out to be missing
        if r.1 = 0 then
          (false, r.2, Function.update t i { t i with valid := true, prot := (parent i).prot },
            phys)
        else
          copyPages parent is r.2 (Function.update t i ⟨true, (parent i).prot, r.1⟩)
            (Function.update phys r.1 (phys (parent i).pfn))
      else copyPages parent is m t phys

/-- The loop of `init_proc_kernel`. When a frame is missing it leaves
`KernelContextSwitch` with no context to return to. -/
def initKStack : List Int → Mem → PageTable → Option (Mem × PageTable)
  | [], m, t => some (m, t)
  | i :: is, m, t =>
      let r := m.grabAFrame
      if r.1 = 0 then none
      else initKStack is r.2 (Function.update t i ⟨true, protRead ||| protWrite, r.1⟩)

/-! ## User memory -/

namespace Kernel

/-- The frame and offset that the address `a` of region 1 is mapped to with the
rights `prot`. Region 0 is not translated: a load or store of the kernel through
a user's pointer into it has no step. -/
def translate (σ : Kernel) (prot : ℕ) (a : Word) : Option (ℕ × ℕ) :=
  if vmem1Base ≤ a ∧ a < vmem1Limit then
    σ.ptbr1.bind fun q =>
      let e := (σ.space q).uPageTable (pageNumber (a - vmem1Base))
      if e.valid ∧ e.prot &&& prot = prot then some (e.pfn, (a &&& pageOffset).toNat) else none
  else none

def loadByte (σ : Kernel) (a : Word) : Option Byte :=
  (σ.translate protRead a).map fun x => σ.phys x.1 x.2

/-- `n` bytes from address `a` on. -/
def copyIn (σ : Kernel) : Word → ℕ → Option (List Byte)
  | _, 0 => some []
  | a, n + 1 =>
      (σ.loadByte a).bind fun b => (copyIn σ (a + 1) n).map fun bs => b :: bs

/-- Physical memory after the bytes have been written at address `a`. -/
def writeBytes (σ : Kernel) : Word → List Byte → (ℕ → ℕ → Byte) → Option (ℕ → ℕ → Byte)
  | _, [], phys => some phys
  | a, b :: bs, phys =>
      (σ.translate protWrite a).bind fun x =>
        writeBytes σ (a + 1) bs (Function.update phys x.1 (Function.update (phys x.1) x.2 b))

/-- The bytes are written at address `a`. -/
def copyOut (σ : Kernel) (a : Word) (bs : List Byte) : Option Kernel :=
  (σ.writeBytes a bs σ.phys).map fun phys => { σ with phys := phys }

end Kernel

/-- The bytes of an `int`, lowest first. -/
def intBytes (w : Word) : List Byte :=
  [w.extractLsb' 0 8, w.extractLsb' 8 8, w.extractLsb' 16 8, w.extractLsb' 24 8]

/-- The `int` of four bytes. -/
def bytesInt : List Byte → Word
  | [a, b, c, d] => (d ++ c ++ b ++ a : BitVec 32)
  | _ => 0

/-- `*a = w`. -/
def Kernel.storeInt (σ : Kernel) (a w : Word) : Option Kernel := σ.copyOut a (intBytes w)

/-- `*a`. -/
def Kernel.loadInt (σ : Kernel) (a : Word) : Option Word := (σ.copyIn a 4).map bytesInt

end Yalnix
