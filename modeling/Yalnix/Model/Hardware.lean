import Mathlib.Data.BitVec
import Mathlib.Logic.Function.Basic

/-!
# The machine of `hardware.h` and `yalnix.h`

Words are 32 bits wide (the kernel is built with `-m32`), an address is a word,
and a page is 8 KiB. `pageNumber w` is `w >> PAGESHIFT` on a signed `long`, so
it is negative for an address below the base it was taken from.
-/

namespace Yalnix

/-- A machine word: `u_long`, `void *`, and `int` before it is read as signed. -/
abbrev Word := BitVec 32

abbrev Byte := BitVec 8

/-- A process is known by its pid, so a `pcb_t *` is a pid; `-1` is no process. -/
abbrev Pid := Int

/-- `ERROR`. -/
def error : Int := -1

/-! ## Sizes and bounds -/

def pageShift : Nat := 13
def pageOffset : Word := 0x1fff#32
def pageMask : Word := ~~~pageOffset

def vmem1Base : Word := 0x100000#32
def vmem1Limit : Word := 0x200000#32

/-- `VMEM_0_LIMIT - 2 * PAGESIZE`. -/
def kernelStackBase : Int := 0xfc000

def userPagetableSize : Int := 128

/-- `MAX_PT_LEN`. -/
def maxPtLen : Int := 128

def numTerminals : Int := 4
def terminalMaxLine : Nat := 1024
def pipeBufSize : Int := 4096
def maxProc : Int := 1000

/-- `POST_ARGV_NULL_SPACE` of the LINUX build. -/
def postArgvNullSpace : Word := 0x20#32

def upToPage (n : Word) : Word := (n + pageOffset) &&& pageMask

def downToPage (n : Word) : Word := n &&& pageMask

/-- `(long) w >> PAGESHIFT`. -/
def pageNumber (w : Word) : Int := (w.sshiftRight pageShift).toInt

/-! ## Page tables -/

def protRead : Nat := 1
def protWrite : Nat := 2
def protExec : Nat := 4

/-- `struct pte`. -/
structure Pte where
  valid : Bool := false
  prot : Nat := 0
  pfn : Nat := 0
  deriving DecidableEq, Inhabited

/-- A page table: region 1 and region 0 tables have entries `0 .. 127`, a kernel
stack table has entries `0` and `1`. -/
abbrev PageTable := Int → Pte

/-- `i` is an index of a user page table. -/
def inTable (i : Int) : Prop := 0 ≤ i ∧ i < userPagetableSize

instance (i : Int) : Decidable (inTable i) := inferInstanceAs (Decidable (_ ∧ _))

/-! ## Contexts and traps -/

instance UserContext.neZero_regs : NeZero (8 : ℕ) := ⟨by decide⟩

/-- `UserContext`. -/
structure UserContext where
  vector : Int := 0
  code : Word := 0
  addr : Word := 0
  pc : Word := 0
  sp : Word := 0
  ebp : Word := 0
  regs : Fin 8 → Word := fun _ => 0

instance : Inhabited UserContext := ⟨{}⟩

/-- The context with the value `v` of a kernel call in `regs[0]`. -/
def UserContext.setRet (u : UserContext) (v : Int) : UserContext :=
  { u with regs := Function.update u.regs 0 (BitVec.ofInt 32 v) }

/-- The kernel calls that `trap_kernel_hdl` knows. -/
inductive Call where
  | brk | fork | exec | exit | wait | delay | getpid | ttyRead | ttyWrite
  | pipeInit | pipeRead | pipeWrite | lockInit | lockAcquire | lockRelease
  | cvarInit | cvarSignal | cvarBroadcast | cvarWait | reclaim
  | custom0 | custom1 | custom2
  deriving DecidableEq

/-- The call numbers of the LINUX build, without `YALNIX_PREFIX`. -/
def Call.number : Call → Word
  | .fork => 0x1 | .exec => 0x2 | .exit => 0x3 | .wait => 0x4
  | .getpid => 0x5 | .brk => 0x6 | .delay => 0x7
  | .ttyRead => 0x21 | .ttyWrite => 0x22
  | .pipeInit => 0x48 | .pipeRead => 0x49 | .pipeWrite => 0x4a
  | .lockInit => 0x63 | .lockAcquire => 0x64 | .lockRelease => 0x65
  | .cvarInit => 0x66 | .cvarSignal => 0x67 | .cvarBroadcast => 0x68
  | .cvarWait => 0x69 | .reclaim => 0x6a
  | .custom0 => 0x70 | .custom1 => 0x71 | .custom2 => 0x72

def yalnixPrefix : Word := 0xabcdef00#32

/-- The `code` of a kernel call. -/
def Call.code (c : Call) : Word := c.number ||| yalnixPrefix

def Call.all : List Call :=
  [.brk, .fork, .exec, .exit, .wait, .delay, .getpid, .ttyRead, .ttyWrite,
    .pipeInit, .pipeRead, .pipeWrite, .lockInit, .lockAcquire, .lockRelease,
    .cvarInit, .cvarSignal, .cvarBroadcast, .cvarWait, .reclaim,
    .custom0, .custom1, .custom2]

/-- The `switch (u_context->code)` of `trap_kernel_hdl`. -/
def Call.decode (w : Word) : Option Call := Call.all.find? fun c => c.code = w

theorem Call.decode_code (c : Call) : Call.decode c.code = some c := by
  cases c <;> decide

end Yalnix
