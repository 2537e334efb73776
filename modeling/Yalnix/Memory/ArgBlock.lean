import Yalnix.Memory.Loaded
import Yalnix.Memory.Owned

/-!
# The arguments on the stack of a new program

`load_program` puts the argument strings at the end of region 1 and, below them, `argc`, a
pointer to each string and two null pointers. A start-up routine that begins at the stack
pointer finds the strings again. The loop of `load_program` writes at two places at once:
`ArgsAt` says what it leaves from each of them on.
-/

namespace Yalnix

/-- From byte `k` on a memory has pointers to the strings `args`, which follow each other from
byte `c` on, and then two null pointers. -/
def ArgsAt (m : ℕ → Byte) : ℕ → ℕ → List (List Byte) → Prop
  | k, _, [] => slice m k 4 = intBytes 0 ∧ slice m (k + 4) 4 = intBytes 0
  | k, c, s :: args =>
      slice m k 4 = intBytes (userAddr c) ∧ slice m c (s.length + 1) = s ++ [0] ∧
        ArgsAt m (k + 4) (c + (s.length + 1)) args

/-- The bytes from `k` on are mapped, one frame for each page, and can be read and written. -/
structure PageTable.Open (t : PageTable) (k : ℕ) : Prop where
  separate : t.Separate
  write : t.Allows protWrite k (2 ^ 20 - k)
  read : t.Allows protRead k (2 ^ 20 - k)

namespace Kernel

/-- The start-up code of a program: the strings that `n` pointers from `a` on lead to, if two
null pointers follow. -/
def readVector (σ : Kernel) : ℕ → Word → Option (List (List Byte))
  | 0, a => (σ.loadInt a).bind fun w => (σ.loadInt (a + 4)).bind fun w' =>
      if w = 0 ∧ w' = 0 then some [] else none
  | n + 1, a => (σ.loadInt a).bind fun w => (σ.readString (2 ^ 20 + 1) w).bind fun s =>
      (readVector σ n (a + 4)).map fun args => s :: args

/-- The arguments that a program starts with whose stack pointer is `sp`. -/
def startArgs (σ : Kernel) (sp : Word) : Option (List (List Byte)) :=
  (σ.loadInt sp).bind fun argc => σ.readVector argc.toNat (sp + 4)

end Kernel

variable {t : PageTable} {m : ℕ → Byte} {k c n : ℕ} {s : List Byte} {args : List (List Byte)}
  {li : Exe}

@[simp] theorem intBytes_length (w : Word) : (intBytes w).length = 4 := rfl

theorem argSize_cons (s : List Byte) (args : List (List Byte)) :
    argSize (s :: args) = s.length + 1 + argSize args := by
  rw [argSize, argSize, List.map_cons, List.sum_cons]

theorem PageTable.Open.mono (h : t.Open k) (k' : ℕ) (hle : k ≤ k') : t.Open k' where
  separate := h.separate
  write := fun j hj hj' => h.write j (by omega) (by omega)
  read := fun j hj hj' => h.read j (by omega) (by omega)

namespace Kernel

variable {σ σ' τ : Kernel} {p q : Pid} {bs : List Byte} {w : Word}

/-! ## Writing the block -/

theorem copyOut_open (bs : List Byte) (hq : σ.ptbr1 = some q) (ho : (σ.space q).uPageTable.Open k)
    (hend : k + bs.length ≤ 2 ^ 20) :
    ∃ phys, σ.copyOut (userAddr k) bs = some { σ with phys := phys } ∧
      (σ.space q).uPageTable.bytes phys = overlay ((σ.space q).uPageTable.bytes σ.phys) k bs :=
  copyOut_userAddr hq ho.separate (ho.write.mono le_rfl (by omega))

/-- The loop that copies the strings and sets `argv`. -/
theorem copyArgs_argsAt (args : List (List Byte)) (hq : σ.ptbr1 = some q)
    (ho : (σ.space q).uPageTable.Open k)
    (hgap : k + 4 * (args.length + 2) ≤ c) (hend : c + argSize args ≤ 2 ^ 20) :
    ∃ phys, σ.copyArgs (userAddr k) (userAddr c) args = some { σ with phys := phys } ∧
      ArgsAt ((σ.space q).uPageTable.bytes phys) k c args ∧
      ∀ j, j < k ∨ (k + 4 * (args.length + 2) ≤ j ∧ j < c) →
        (σ.space q).uPageTable.bytes phys j = (σ.space q).uPageTable.bytes σ.phys j := by
  induction args generalizing σ k c with
  | nil =>
      rw [List.length_nil] at hgap
      obtain ⟨phys₁, h₁, hbytes₁⟩ := copyOut_open (intBytes 0) hq ho
        (by rw [intBytes_length]; omega)
      obtain ⟨phys₂, h₂, hbytes₂⟩ := copyOut_open (σ := { σ with phys := phys₁ })
        (intBytes 0) hq (ho.mono (k + 4) (by omega)) (by rw [intBytes_length]; omega)
      refine ⟨phys₂, ?_, ⟨?_, ?_⟩, fun j hj => ?_⟩
      · rw [copyArgs, storeInt, h₁, Option.bind_some, storeInt,
          show userAddr k + 4 = userAddr (k + 4) from userAddr_add k 4, h₂]
      · rw [hbytes₂, slice_overlay_of_apart (Or.inl le_rfl), hbytes₁]
        exact slice_overlay_self _ _ (intBytes 0)
      · rw [hbytes₂]
        exact slice_overlay_self _ _ (intBytes 0)
      · rw [List.length_nil] at hj
        rw [hbytes₂, overlay_of_apart (by rw [intBytes_length]; omega), hbytes₁,
          overlay_of_apart (by rw [intBytes_length]; omega)]
  | cons s args ih =>
      rw [List.length_cons] at hgap
      rw [argSize_cons] at hend
      obtain ⟨phys₁, h₁, hbytes₁⟩ := copyOut_open (intBytes (userAddr c)) hq ho
        (by rw [intBytes_length]; omega)
      have hlen : (s ++ [(0 : Byte)]).length = s.length + 1 := by simp
      obtain ⟨phys₂, h₂, hbytes₂⟩ := copyOut_open (σ := { σ with phys := phys₁ })
        (s ++ [0]) hq (ho.mono c (by omega)) (by rw [hlen]; omega)
      obtain ⟨phys₃, h₃, hrest, hsame⟩ := ih (σ := { σ with phys := phys₂ }) hq
        (ho.mono (k + 4) (by omega)) (c := c + (s.length + 1)) (by omega) (by omega)
      refine ⟨phys₃, ?_, ⟨?_, ?_, hrest⟩, fun j hj => ?_⟩
      · rw [copyArgs, storeInt, h₁, Option.bind_some, h₂, Option.bind_some,
          show userAddr k + 4 = userAddr (k + 4) from userAddr_add k 4, userAddr_add, h₃]
      · rw [slice_congr fun j hle hlt => hsame j (by omega), hbytes₂,
          slice_overlay_of_apart (Or.inl (by omega)), hbytes₁]
        exact slice_overlay_self _ _ (intBytes (userAddr c))
      · rw [slice_congr fun j hle hlt => hsame j (by omega), hbytes₂, ← hlen]
        exact slice_overlay_self _ _ (s ++ [0])
      · rw [List.length_cons] at hj
        rw [hsame j (by omega), hbytes₂, overlay_of_apart (by rw [hlen]; omega), hbytes₁,
          overlay_of_apart (by rw [intBytes_length]; omega)]

/-- The argument list is on the stack: the number of strings, then the pointers to them. -/
theorem buildArgs_argsAt (hq : σ.ptbr1 = some q) (ho : (σ.space q).uPageTable.Open k)
    (hgap : k + 4 * (args.length + 3) ≤ c) (hend : c + argSize args = 2 ^ 20)
    (htable : argTable args = userAddr k) (hstrings : argStrings args = userAddr c) :
    ∃ phys, σ.buildArgs args = some { σ with phys := phys } ∧
      slice ((σ.space q).uPageTable.bytes phys) k 4 = intBytes (BitVec.ofNat 32 args.length) ∧
      ArgsAt ((σ.space q).uPageTable.bytes phys) (k + 4) c args := by
  have hrest : (vmem1Limit - userAddr k).toNat = 2 ^ 20 - k := by
    have haddr := toNat_userAddr (k := k) (by omega)
    have hlimit : vmem1Limit.toNat = 0x200000 := rfl
    rw [BitVec.toNat_sub, haddr, hlimit]
    omega
  obtain ⟨phys₁, h₁, -⟩ := copyOut_open (List.replicate (2 ^ 20 - k) 0) hq ho
    (by rw [List.length_replicate]; omega)
  obtain ⟨phys₂, h₂, hbytes₂⟩ := copyOut_open (σ := { σ with phys := phys₁ })
    (intBytes (BitVec.ofNat 32 args.length)) hq ho (by rw [intBytes_length]; omega)
  obtain ⟨phys₃, h₃, hargs, hsame⟩ := copyArgs_argsAt (σ := { σ with phys := phys₂ }) args
    hq (ho.mono (k + 4) (by omega)) (c := c) (by omega) (by omega)
  refine ⟨phys₃, ?_, ?_, hargs⟩
  · unfold buildArgs
    dsimp only
    rw [htable, hstrings, hrest, h₁, Option.bind_some, storeInt, h₂, Option.bind_some,
      show userAddr k + 4 = userAddr (k + 4) from userAddr_add k 4, h₃]
  · rw [slice_congr fun j hle hlt => hsame j (by omega), hbytes₂]
    exact slice_overlay_self _ _ (intBytes (BitVec.ofNat 32 args.length))

/-! ## Reading it back -/

theorem loadInt_open (hq : σ.ptbr1 = some q) (ho : (σ.space q).uPageTable.Open k)
    (hk : k + 4 ≤ 2 ^ 20) (h : slice ((σ.space q).uPageTable.bytes σ.phys) k 4 = intBytes w) :
    σ.loadInt (userAddr k) = some w := by
  rw [loadInt_userAddr hq (ho.read.mono le_rfl (by omega)), h, bytesInt_intBytes]

theorem readVector_argsAt (hq : σ.ptbr1 = some q) (ho : (σ.space q).uPageTable.Open k)
    (hgap : k + 4 * (args.length + 2) ≤ c) (hend : c + argSize args ≤ 2 ^ 20)
    (hs : ∀ s ∈ args, 0 ∉ s) (h : ArgsAt ((σ.space q).uPageTable.bytes σ.phys) k c args) :
    σ.readVector args.length (userAddr k) = some args := by
  induction args generalizing k c with
  | nil =>
      rw [List.length_nil] at hgap
      rw [List.length_nil, readVector, loadInt_open hq ho (by omega) h.1, Option.bind_some,
        show userAddr k + 4 = userAddr (k + 4) from userAddr_add k 4,
        loadInt_open hq (ho.mono _ (by omega)) (by omega) h.2, Option.bind_some, if_pos ⟨rfl, rfl⟩]
  | cons s args ih =>
      obtain ⟨hpointer, hstring, hrest⟩ := h
      rw [List.length_cons] at hgap
      rw [argSize_cons] at hend
      have hread : (σ.space q).uPageTable.Allows protRead c (s.length + 1) :=
        (ho.mono c (by omega)).read.mono le_rfl (by omega)
      rw [List.length_cons, readVector, loadInt_open hq ho (by omega) hpointer, Option.bind_some,
        readString_userAddr hq (hs s (by simp)) (by omega) hread hstring, Option.bind_some,
        show userAddr k + 4 = userAddr (k + 4) from userAddr_add k 4,
        ih (ho.mono _ (by omega)) (by omega) (by omega) (fun s hs' => hs s (by simp [hs'])) hrest,
        Option.map_some]

/-- A block that lies in open pages is what the start-up code reads. -/
theorem startArgs_open (hq : σ.ptbr1 = some q) (ho : (σ.space q).uPageTable.Open k)
    (hgap : k + 4 * (args.length + 3) ≤ c) (hend : c + argSize args ≤ 2 ^ 20)
    (hs : ∀ s ∈ args, 0 ∉ s) (hcount : slice ((σ.space q).uPageTable.bytes σ.phys) k 4 =
      intBytes (BitVec.ofNat 32 args.length))
    (h : ArgsAt ((σ.space q).uPageTable.bytes σ.phys) (k + 4) c args) :
    σ.startArgs (userAddr k) = some args := by
  have hlen : (BitVec.ofNat 32 args.length).toNat = args.length :=
    Nat.mod_eq_of_lt (by omega)
  rw [startArgs, loadInt_open hq ho (by omega) hcount, Option.bind_some, hlen,
    show userAddr k + 4 = userAddr (k + 4) from userAddr_add k 4]
  exact readVector_argsAt hq (ho.mono _ (by omega)) (by omega) hend hs h

end Kernel

/-! ## Where the block lies -/

/-- The addresses behind the block's start are in the pages of the stack. -/
theorem mem_block {a : Word} (hk : 2 ^ 20 ≤ k + 8192 * n) (hle : userAddr k ≤ a)
    (hlt : a < vmem1Limit) (hstart : k < 2 ^ 20) :
    inTable (pageNumber (a - vmem1Base)) ∧ pageNumber (a - vmem1Base) ∈ topPages n := by
  have hle' : (userAddr k).toNat ≤ a.toNat := hle
  have hlt' : a.toNat < 0x200000 := hlt
  rw [toNat_userAddr (by omega)] at hle'
  have hsub : (a - vmem1Base).toNat = a.toNat - 0x100000 := by
    have hbase : vmem1Base.toNat = 0x100000 := rfl
    rw [BitVec.toNat_sub, hbase]
    omega
  have hpage : pageNumber (a - vmem1Base) = ((a.toNat - 0x100000) / 8192 : ℕ) := by
    rw [pageNumber_of_lt (by omega), hsub]
  rw [hpage]
  refine ⟨inTable_page (by omega), ?_⟩
  rw [mem_topPages, userPagetableSize]
  omega

/-- The block of arguments is in the stack pages, begins at a multiple of 8 and has the strings
behind the pointers. -/
theorem block_offsets (hargs : li.SizesTrue args) (hstack : stackNpg args < maxPtLen) :
    ∃ k c, argTable args = userAddr k ∧ argStrings args = userAddr c ∧ k % 8 = 0 ∧
      k + 4 * (args.length + 3) ≤ c ∧ c + argSize args = 2 ^ 20 ∧
      2 ^ 20 ≤ k + 8192 * (stackNpg args).toNat := by
  have hbytes := (sizesTrue_iff.1 hargs).1
  have htable : trueTable args % 8 = 0 ∧
      trueTable args + 4 * (args.length + 3) ≤ trueStrings args := by
    unfold trueTable
    dsimp only
    omega
  have hpages : trueStack args = 8192 * stackNpg args ∧
      0x200000 - trueTable args ≤ trueStack args := by
    rw [hargs.stack]
    unfold trueStack
    omega
  have hstrings : trueStrings args = 0x200000 - argSize args := rfl
  unfold maxPtLen at hstack
  have haddr : ∀ x : Int, 0x100000 ≤ x → BitVec.ofInt 32 x = userAddr (x - 0x100000).toNat := by
    intro x hx
    obtain ⟨j, hj⟩ := Int.eq_ofNat_of_zero_le (Int.sub_nonneg.2 hx)
    obtain rfl : x = 0x100000 + (j : Int) := by omega
    rw [show (0x100000 + (j : Int) - 0x100000).toNat = j by omega, BitVec.ofInt_add,
      BitVec.ofInt_natCast]
    rfl
  refine ⟨(trueTable args - 0x100000).toNat, (trueStrings args - 0x100000).toNat, ?_, ?_, ?_, ?_,
    ?_, ?_⟩
  · rw [argTable_eq, haddr _ (by omega)]
  · rw [argStrings_eq, haddr _ (by omega)]
  · omega
  · omega
  · omega
  · omega

/-! ## The frames of a new program -/

theorem usesOn_userFrames (x : Space) (f : ℕ) :
    usesOn userPages x.uPageTable f = x.userFrames.count f := by
  have hall : ∀ is : List Int, usesOn is x.uPageTable f =
      ((is.filter fun i => (x.uPageTable i).valid).map fun i => (x.uPageTable i).pfn).count f := by
    intro is
    induction is with
    | nil => rfl
    | cons i is ih =>
        rw [usesOn_cons, ih, Pte.uses]
        by_cases hv : (x.uPageTable i).valid = true
        · rw [List.filter_cons_of_pos (by simpa using hv), List.map_cons, List.count_cons,
            Nat.add_comm]
          simp [hv]
        · rw [List.filter_cons_of_neg (by simpa using hv), if_neg fun h => hv h.1, Nat.zero_add]
  exact hall userPages

namespace Kernel

variable {σ σ' τ : Kernel} {p : Pid}

/-- No frame is in the list twice after the pages of a process have been given back, if none was
listed or mapped twice before. -/
theorem nodup_freedPages (h : (σ.mem.freeFrames ++ (σ.space p).userFrames).Nodup) :
    (σ.freedPages p).1.freeFrames.Nodup := by
  rw [List.nodup_iff_count_le_one] at h ⊢
  intro f
  have hcount := freePages_uses (m := σ.mem) (t := (σ.space p).uPageTable) nodup_userPages f
  have hone := h f
  rw [List.count_append] at hone
  rw [usesOn_userFrames] at hcount
  exact hcount.trans hone

/-- The pages of a new program have frames of their own. -/
theorem load_separate (h : li.Segmented) (hn : n + li.dataPg1 + li.dataNpg.toNat < maxPtLen)
    (hframes : (σ.mem.freeFrames ++ (σ.space p).userFrames).Nodup)
    (hmap : σ.mapProgram li n p = some (true, τ)) :
    ((τ.protect li p).space p).uPageTable.Separate := by
  rcases mapProgram_cases hmap with ⟨-, hlen, -, hτ⟩ | ⟨hb, -⟩
  swap
  · exact absurd hb (by simp)
  have hsupply : ((σ.freedPages p).1.supply.map Pte.rw).Nodup := by
    refine ((nodup_freedPages hframes).sublist (Mem.supply_sublist _)).map ?_
    intro f g hfg
    exact congrArg Pte.pfn hfg
  have hpfn : ∀ t i, (protectText li t i).pfn = (t i).pfn := by
    intro t i
    unfold protectText
    split <;> rfl
  have hlen' : (li.programPages n).length ≤ ((σ.freedPages p).1.supply.map Pte.rw).length := by
    rwa [List.length_map]
  rw [protect_mapped hτ]
  intro i hi hv j hj hv' hframe
  have hmem := (loaded_entry hlen (freedPages_invalid σ p hi)).1.1 hv
  have hmem' := (loaded_entry hlen (freedPages_invalid σ p hj)).1.1 hv'
  refine assign_inj (nodup_programPages h hn) hlen' (hsupply.sublist (List.take_sublist _ _))
    hmem hmem' (f := (σ.freedPages p).2) ?_
  obtain ⟨f, -, hf⟩ := assign_rw (t := (σ.freedPages p).2) hlen hmem
  obtain ⟨g, -, hg⟩ := assign_rw (t := (σ.freedPages p).2) hlen hmem'
  dsimp only at hframe
  rw [hpfn, hpfn, hf, hg] at hframe
  rw [hf, hg]
  exact congrArg Pte.rw hframe

/-- The block of arguments of the process `p`, which has `n` pages of stack: the start-up code
reads the strings from it, the stack pointer is aligned, the strings lie behind the pointers
up to the end of region 1, and all of it is in pages of the stack. -/
structure ArgBlock (σ : Kernel) (p : Pid) (sp : Word) (args : List (List Byte)) (n : ℕ) : Prop where
  read : σ.startArgs sp = some args
  aligned : sp.toNat % 8 = 0
  apart : ∃ k c, sp = userAddr k ∧ k + 4 * (args.length + 3) ≤ c ∧ c + argSize args = 2 ^ 20 ∧
    ArgsAt ((σ.space p).uPageTable.bytes σ.phys) (k + 4) c args
  stack : ∀ a, sp ≤ a → a < vmem1Limit → pageNumber (a - vmem1Base) ∈ topPages n ∧
    ((σ.space p).uPageTable (pageNumber (a - vmem1Base))).valid = true

/-- The pages of the stack of a new program can be read and written. -/
theorem loaded_open {x : Space} (h : x.Loaded li n) (hsep : x.uPageTable.Separate)
    (hk : 2 ^ 20 ≤ k + 8192 * n) : x.uPageTable.Open k := by
  have hentry : ∀ j, k ≤ j → j < 2 ^ 20 → (x.uPageTable.entryOf j).valid = true ∧
      (x.uPageTable.entryOf j).prot = protRead ||| protWrite := by
    intro j hle hlt
    have hmem : ((j / 8192 : ℕ) : Int) ∈ topPages n := by
      rw [mem_topPages, userPagetableSize]
      omega
    exact ⟨(h.valid _ (inTable_page hlt)).2 (Or.inr (Or.inr hmem)), h.stack _ hmem⟩
  refine ⟨hsep, fun j hle hlt => ?_, fun j hle hlt => ?_⟩
  · obtain ⟨hv, hprot⟩ := hentry j hle (by omega)
    exact ⟨by omega, hv, by rw [hprot]; rfl⟩
  · obtain ⟨hv, hprot⟩ := hentry j hle (by omega)
    exact ⟨by omega, hv, by rw [hprot]; rfl⟩

end Kernel

end Yalnix
