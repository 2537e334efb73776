import Yalnix.Memory.Protection

/-!
# The account of the frames

A page table entry that is overwritten was the only place of its frame, and `sys_Brk`,
`trap_memory_hdl` and `load_program` map pages without a look at what is there. Each operation
that moves frames has an account here: where nothing is missing, it keeps every frame, or it
does so exactly when it maps pages that were not mapped. The heap of the kernel grows over
pages that are not mapped, and what an Exit gives back is in the list or with the kernel again.
-/

namespace Yalnix

/-- The pages are different ones, and none of them is mapped. -/
def Unmapped (is : List Int) (t : PageTable) : Prop := is.Nodup ∧ ∀ i ∈ is, (t i).valid = false

instance (is : List Int) (t : PageTable) : Decidable (Unmapped is t) :=
  inferInstanceAs (Decidable (_ ∧ _))

/-! ## Entries -/

section Tables

variable {is : List Int} {t : PageTable} {f : ℕ} {i : Int} {e : Pte}

theorem Pte.uses_valid (h : e.valid = true) : e.uses f = if e.pfn = f then 1 else 0 := by
  simp [Pte.uses, h]

theorem Pte.uses_invalid (h : e.valid = false) : e.uses f = 0 := by
  simp [Pte.uses, h]

/-- What a page that gets another entry was mapped to is no longer counted. -/
theorem usesOn_update (his : is.Nodup) (hi : i ∈ is) :
    usesOn is (Function.update t i e) f + (t i).uses f = usesOn is t f + e.uses f := by
  unfold usesOn
  simp only [Function.apply_update (fun _ e => Pte.uses e f)]
  exact sum_map_update (s := fun j => (t j).uses f) his hi

/-- The first page is not mapped, and the others are not when it is. -/
theorem unmapped_cons (he : e.valid = true) :
    Unmapped (i :: is) t ↔ (t i).valid = false ∧ Unmapped is (Function.update t i e) := by
  unfold Unmapped
  rw [List.nodup_cons, List.forall_mem_cons]
  constructor
  · rintro ⟨⟨hi, his⟩, hfirst, hrest⟩
    refine ⟨hfirst, his, fun j hj => ?_⟩
    have hne : j ≠ i := by
      rintro rfl
      exact hi hj
    rw [Function.update_of_ne hne]
    exact hrest j hj
  · rintro ⟨hfirst, his, hrest⟩
    have hi : i ∉ is := by
      intro hi
      have hvalid := hrest i hi
      rw [Function.update_self, he] at hvalid
      exact absurd hvalid (by simp)
    refine ⟨⟨hi, his⟩, hfirst, fun j hj => ?_⟩
    have hne : j ≠ i := by
      rintro rfl
      exact hi hj
    have hvalid := hrest j hj
    rwa [Function.update_of_ne hne] at hvalid

end Tables

/-! ## The heap of the kernel -/

namespace Mem

/-- The pages from the break up to the kernel stack are not mapped. -/
structure HeapRoom (m : Mem) : Prop where
  enabled : m.vmemEnabled = true
  brk : m.kernelBrk.toNat ≤ 0xfc000
  room : ∀ i, pageNumber m.kernelBrk ≤ i → i < kernelStackPage →
    (m.krnlPageTable i).valid = false

variable {m : Mem} {f : ℕ}

theorem HeapRoom.taken (h : m.HeapRoom) (n : ℕ) : (m.taken n).HeapRoom :=
  ⟨h.enabled, h.brk, h.room⟩

theorem refused_mapKernelPages {n : ℕ} {i : Int} (h : (m.mapKernelPages n i).1 = false) :
    m.refused < (m.mapKernelPages n i).2.refused := by
  induction n generalizing i m with
  | zero => exact absurd h (by simp [mapKernelPages])
  | succ n ih =>
      unfold mapKernelPages at h ⊢
      dsimp only at h ⊢
      split at h
      · rename_i hzero
        rw [if_pos hzero, refused_grabAFrame hzero]
        exact Nat.lt_succ_self _
      · rename_i hframe
        rw [if_neg hframe]
        exact lt_of_le_of_lt (le_refused_grabAFrame m) (ih h)

/-- A heap that grows over pages that are not mapped loses no frame. -/
theorem pool_mapKernelPages {n : ℕ} {i : Int} (h₀ : 0 ≤ i) (hn : i + n ≤ kernelStackPage)
    (hroom : ∀ j, i ≤ j → j < kernelStackPage → (m.krnlPageTable j).valid = false)
    (h : (m.mapKernelPages n i).1 = true) (f : ℕ) : (m.mapKernelPages n i).2.pool f = m.pool f := by
  induction n generalizing i m with
  | zero => rfl
  | succ n ih =>
      unfold mapKernelPages at h ⊢
      dsimp only at h ⊢
      split at h
      · exact absurd h (by simp)
      rename_i hframe
      rw [if_neg hframe]
      have hstack : (kernelStackPage : Int) = 126 := rfl
      have hsame := sameKernel_grabAFrame m
      have hpage : i ∈ kernelPages := by
        rw [kernelPages, mem_pages_up]
        omega
      have hrest := ih (i := i + 1) (by omega) (by push_cast at hn; omega) (fun j hj hlt => ?_) h
      · rw [hrest]
        have hcount := count_grabAFrame hframe f
        have hupdate := usesOn_update (t := m.grabAFrame.2.krnlPageTable) (f := f)
          (e := ⟨true, protWrite ||| protRead, m.grabAFrame.1⟩) nodup_kernelPages hpage
        have hold : (m.grabAFrame.2.krnlPageTable i).uses f = 0 := by
          rw [hsame.table]
          exact Pte.uses_invalid (hroom i (le_refl i) (by omega))
        have hkernel := hsame.kernelUses f
        rw [hold, Pte.uses_valid rfl] at hupdate
        unfold kernelUses at hkernel
        dsimp only at hupdate
        unfold pool kernelUses
        dsimp only
        omega
      · dsimp only
        rw [Function.update_of_ne (by omega), hsame.table]
        exact hroom j (by omega) hlt

/-- Where no frame is refused, a call of `SetKernelBrk` loses none. -/
theorem setKernelBrk_room (h : m.HeapRoom) {a : Word} (ha : a.toNat < 2 ^ 31)
    (href : (m.setKernelBrk a).2.refused = m.refused) :
    (m.setKernelBrk a).2.HeapRoom ∧ ∀ f, (m.setKernelBrk a).2.pool f = m.pool f := by
  have hbrk := h.brk
  unfold setKernelBrk at href ⊢
  rw [if_neg (by rw [h.enabled]; simp)] at href ⊢
  split at href
  swap
  · rename_i hle
    rw [if_neg hle]
    exact ⟨h, fun _ => rfl⟩
  rename_i hgt
  have hgt' : m.kernelBrk.toNat < a.toNat := hgt
  rw [if_pos hgt]
  split at href
  · rename_i hstack
    rw [if_pos hstack]
    exact ⟨h, fun _ => rfl⟩
  rename_i hstack
  rw [if_neg hstack]
  dsimp only at href ⊢
  have hfrom := pageNumber_of_lt (a := m.kernelBrk) (by omega)
  have hto := pageNumber_of_lt ha
  have hplace : a.toNat < 0xfc000 := by
    rw [BitVec.toInt_eq_toNat_of_lt (by omega)] at hstack
    unfold kernelStackBase at hstack
    omega
  by_cases hok : (m.mapKernelPages (pageNumber a - pageNumber m.kernelBrk).toNat
      (pageNumber m.kernelBrk)).1 = true
  swap
  · have hlt := refused_mapKernelPages (Bool.eq_false_iff.2 hok)
    rw [if_neg hok] at href
    dsimp only at href
    omega
  rw [if_pos hok]
  have hpool := pool_mapKernelPages (m := m) (by omega)
    (by unfold kernelStackPage; omega) h.room hok
  refine ⟨⟨(mapKernelPages_brk _ _ m).trans h.enabled, by dsimp only; omega, ?_⟩, hpool⟩
  intro i hi hlt
  have hi' : pageNumber a ≤ i := hi
  have hentry := mapKernelPages_entry hok i
  rw [if_neg (by omega)] at hentry
  dsimp only
  rw [hentry]
  exact h.room i (by omega) hlt

/-- What holds across every call of `SetKernelBrk` with half of the addresses holds across a
call of `malloc`, whatever the heap grows by for it. -/
theorem malloc_rule {R : Mem → Mem → Prop} (hrefl : ∀ m, R m m)
    (htrans : ∀ {m₁ m₂ m₃}, R m₁ m₂ → R m₂ m₃ → R m₁ m₃)
    (hbrk : ∀ m (a : Word), a.toNat < 2 ^ 31 → R m (m.setKernelBrk a).2)
    (hnext : ∀ m as, R m { m with mallocs := as }) (m : Mem) : R m m.malloc.2 := by
  have hgrow : ∀ (ws : List (BitVec 31)) (m : Mem),
      R m (ws.foldl (fun m addr => (m.setKernelBrk (addr.setWidth 32)).2) m) := by
    intro ws
    induction ws with
    | nil => exact hrefl
    | cons w ws ih =>
        intro m
        have hwidth : (w.setWidth 32).toNat < 2 ^ 31 := by
          have hlt := w.isLt
          rw [BitVec.toNat_setWidth, Nat.mod_eq_of_lt (by omega)]
          exact hlt
        rw [List.foldl_cons]
        exact htrans (hbrk m _ hwidth) (ih _)
  unfold malloc
  cases hm : m.mallocs with
  | nil => exact hrefl m
  | cons a as => exact htrans (hnext m as) (hgrow a.grow _)

/-- Where no frame is refused, the heap keeps its room and loses no frame. -/
structure Accounted (m m' : Mem) : Prop where
  refused : m.refused ≤ m'.refused
  room : m.HeapRoom → m'.refused = m.refused → m'.HeapRoom ∧ ∀ f, m'.pool f = m.pool f

theorem Accounted.trans {m₁ m₂ : Mem} (h : Accounted m m₁) (h' : Accounted m₁ m₂) :
    Accounted m m₂ := by
  have hle := h.refused
  have hle' := h'.refused
  refine ⟨hle.trans hle', fun hm href => ?_⟩
  obtain ⟨hroom, hpool⟩ := h.room hm (by omega)
  obtain ⟨hroom', hpool'⟩ := h'.room hroom (by omega)
  exact ⟨hroom', fun f => (hpool' f).trans (hpool f)⟩

theorem malloc_accounted (m : Mem) : Accounted m m.malloc.2 := by
  refine malloc_rule (R := Accounted) ?_ Accounted.trans ?_ ?_ m
  · exact fun m => ⟨le_rfl, fun h _ => ⟨h, fun _ => rfl⟩⟩
  · exact fun m a ha => ⟨le_refused_setKernelBrk m a, fun h href => setKernelBrk_room h ha href⟩
  · exact fun m as => ⟨le_rfl, fun h _ => ⟨⟨h.enabled, h.brk, h.room⟩, fun _ => rfl⟩⟩

/-- A frame for which there is a list node is free. -/
theorem freeFrame_room (h : m.HeapRoom) (hok : m.AllOk) {pfn : ℕ}
    (href : (m.freeFrame pfn).refused = m.refused) : (m.freeFrame pfn).HeapRoom ∧
      ∀ f, (m.freeFrame pfn).pool f = m.pool f + if pfn = f then 1 else 0 := by
  unfold freeFrame at href ⊢
  dsimp only at href ⊢
  rw [if_pos hok.ok] at href ⊢
  obtain ⟨hroom, hpool⟩ := m.malloc_accounted.room h href
  refine ⟨⟨hroom.enabled, hroom.brk, hroom.room⟩, fun f => ?_⟩
  have hsame := hpool f
  unfold pool at hsame ⊢
  unfold kernelUses at hsame ⊢
  rw [List.count_cons]
  simp only [beq_iff_eq]
  omega

end Mem

/-! ## Loops over pages -/

section Loops

variable {is : List Int} {t : PageTable} {m : Mem}

/-- The loop that gives pages back puts each of their frames into the list. -/
theorem freePages_room (h : m.HeapRoom) (hok : m.AllOk) (his : is.Nodup)
    (href : (freePages is m t).1.refused = m.refused) : (freePages is m t).1.HeapRoom ∧
      ∀ f, (freePages is m t).1.pool f = m.pool f + usesOn is t f := by
  induction is generalizing m t with
  | nil => exact ⟨h, fun _ => rfl⟩
  | cons i is ih =>
      obtain ⟨hi, his⟩ := List.nodup_cons.1 his
      simp only [usesOn_cons]
      unfold freePages at href ⊢
      split at href
      · rename_i hv
        rw [if_pos hv]
        have hfirst := le_refused_freeFrame m (t i).pfn
        have hrest : (m.freeFrame (t i).pfn).refused ≤ (freePages is (m.freeFrame (t i).pfn)
            (Function.update t i { t i with valid := false, prot := 0 })).1.refused :=
          le_refused_freePages
        have hsame : (m.freeFrame (t i).pfn).refused = m.refused := by omega
        obtain ⟨hroom, hpool⟩ := Mem.freeFrame_room h hok hsame
        obtain ⟨hroom', hpool'⟩ := ih hroom (hok.freeFrame _) his
          (t := Function.update t i { t i with valid := false, prot := 0 }) (by omega)
        refine ⟨hroom', fun f => ?_⟩
        rw [hpool' f, hpool f, usesOn_update_of_not_mem hi, Pte.uses_valid hv]
        omega
      · rename_i hv
        rw [if_neg hv]
        obtain ⟨hroom, hpool⟩ := ih h hok his href
        refine ⟨hroom, fun f => ?_⟩
        rw [hpool f, Pte.uses_invalid (Bool.eq_false_iff.2 hv), Nat.zero_add]

/-- A loop that finds all its frames loses none if and only if its pages are not mapped. -/
theorem grabPages_kept_iff {r : Bool × Mem × PageTable} (h : grabPages is m t = some r)
    (hr : r.1 = true) : (∀ f, r.2.1.freeFrames.count f + usesOn userPages r.2.2 f =
      m.freeFrames.count f + usesOn userPages t f) ↔ Unmapped is t := by
  induction is generalizing m t with
  | nil =>
      obtain rfl := Option.some.inj h
      exact iff_of_true (fun _ => rfl) ⟨List.nodup_nil, fun i hi => absurd hi (by simp)⟩
  | cons i is ih =>
      rw [grabPages] at h
      split at h
      · obtain rfl := Option.some.inj h
        exact absurd hr (by simp)
      split at h
      swap
      · exact absurd h (by simp)
      rename_i hframe hi
      have hrest := ih h
      have hle := grabPages_uses h
      have hfirst : ∀ f, m.grabAFrame.2.freeFrames.count f +
          usesOn userPages (Function.update t i ⟨true, protRead ||| protWrite, m.grabAFrame.1⟩) f +
            (t i).uses f = m.freeFrames.count f + usesOn userPages t f := by
        intro f
        have hcount := Mem.count_grabAFrame hframe f
        have hupdate := usesOn_update (t := t) (f := f)
          (e := ⟨true, protRead ||| protWrite, m.grabAFrame.1⟩) nodup_userPages
          (inTable_userPages.2 hi)
        rw [Pte.uses_valid (e := ⟨true, protRead ||| protWrite, m.grabAFrame.1⟩) rfl] at hupdate
        dsimp only at hupdate
        omega
      rw [unmapped_cons (e := ⟨true, protRead ||| protWrite, m.grabAFrame.1⟩) rfl]
      cases hv : (t i).valid with
      | true =>
          -- the frame of the page is in its place no longer
          refine iff_of_false (fun hall => ?_) fun hun => absurd hun.1 (by simp)
          have hlost := hfirst (t i).pfn
          rw [Pte.uses_valid hv, if_pos rfl, ← hall (t i).pfn] at hlost
          have hless := hle (t i).pfn
          omega
      | false =>
          rw [and_iff_right rfl, ← hrest]
          refine forall_congr' fun f => ?_
          rw [← hfirst f, Pte.uses_invalid hv, Nat.add_zero]

/-- A loop that has been refused no frame has all its frames from the front of the list. -/
theorem grabPages_taken {r : Bool × Mem × PageTable} (h : grabPages is m t = some r)
    (href : r.2.1.refused = m.refused) : r.1 = true ∧ r.2.1 = m.taken is.length := by
  rcases grabPages_cases h with ⟨-, -, rfl⟩ | ⟨-, hlt⟩
  · exact ⟨rfl, rfl⟩
  · omega

/-- Where no frame is refused, the loop of `trap_memory_hdl` is the one of `sys_Brk`. -/
theorem growStack_grabs {r : Mem × PageTable} (h : growStack is m t = some r)
    (href : r.1.refused = m.refused) : grabPages is m t = some (true, r) := by
  have hlen : is.length ≤ m.supply.length := by
    by_contra hshort
    have hlt := growStack_short (not_le.1 hshort) h
    omega
  rw [growStack_enough hlen] at h
  rw [grabPages_enough hlen]
  split at h
  · rename_i hin
    rw [if_pos hin]
    obtain rfl := Option.some.inj h
    rfl
  · exact absurd h (by simp)

theorem initKStack_taken {r : Mem × PageTable} (h : initKStack is m t = some r) :
    r.1 = m.taken is.length := by
  by_cases hlen : is.length ≤ m.supply.length
  · rw [initKStack_enough hlen] at h
    obtain rfl := Option.some.inj h
    rfl
  · rw [initKStack_short (not_le.1 hlen)] at h
    exact absurd h (by simp)

/-- A new kernel stack has two frames of the list, in valid entries. -/
theorem initKStack_kept {r : Mem × PageTable} (h : initKStack (pages 0 1 2) m t = some r) :
    (∀ f, r.1.freeFrames.count f + stackUses r.2 f = m.freeFrames.count f) ∧
      ∀ i ∈ pages 0 1 2, (r.2 i).valid = true := by
  change initKStack [0, 1] m t = some r at h
  simp only [initKStack] at h
  split at h
  · exact absurd h (by simp)
  rename_i hfirst
  split at h
  · exact absurd h (by simp)
  rename_i hsecond
  obtain rfl := Option.some.inj h
  refine ⟨fun f => ?_, by simp [pages]⟩
  have hcount := Mem.count_grabAFrame hfirst f
  have hcount' := Mem.count_grabAFrame hsecond f
  simp [stackUses, hfirst]
  omega

/-- The pages of a copy have the frames that they were given. -/
theorem usesOn_copied_eq (parent : PageTable) {fs : List ℕ} (ht : Unmapped is t)
    (hin : ∀ i ∈ is, inTable i) (hlen : is.length ≤ fs.length) (f : ℕ) :
    usesOn userPages (assign t is (List.zipWith (copiedEntry parent) is fs)) f =
      usesOn userPages t f + (fs.take is.length).count f := by
  induction is generalizing t fs with
  | nil => simp
  | cons i is ih =>
      cases fs with
      | nil => exact absurd hlen (by simp)
      | cons g gs =>
          obtain ⟨hv, hrest⟩ := (unmapped_cons (e := copiedEntry parent i g) rfl).1 ht
          have hupdate := usesOn_update (t := t) (f := f) (e := copiedEntry parent i g)
            nodup_userPages (inTable_userPages.2 (hin i List.mem_cons_self))
          rw [Pte.uses_invalid hv, Pte.uses_valid rfl] at hupdate
          rw [List.zipWith_cons_cons, assign_cons,
            ih hrest (fun j hj => hin j (List.mem_cons_of_mem _ hj)) (Nat.le_of_succ_le_succ hlen),
            List.length_cons, List.take_succ_cons, List.count_cons]
          simp only [beq_iff_eq]
          have hpfn : (copiedEntry parent i g).pfn = g := rfl
          rw [hpfn] at hupdate
          omega

/-- The same with what the kernel has. -/
theorem grabPages_pool_iff {r : Bool × Mem × PageTable} (h : grabPages is m t = some r)
    (href : r.2.1.refused = m.refused) : (∀ f, r.2.1.pool f + usesOn userPages r.2.2 f =
      m.pool f + usesOn userPages t f) ↔ Unmapped is t := by
  rw [← grabPages_kept_iff h (grabPages_taken h href).1]
  refine forall_congr' fun f => ?_
  unfold Mem.pool
  rw [(grabPages_sameKernel h).kernelUses]
  omega

end Loops

/-! ## Accounts -/

/-- What the account of the frames needs of the memory: the heap of the kernel can grow, and
the processes `ps` have both pages of the kernel stacks that they have. -/
structure Sound (ps : List Pid) (x : Mem × (Pid → Space)) : Prop where
  heap : x.1.HeapRoom
  kstacks : ∀ q ∈ ps, ((x.2 q).kStackPt 0).pfn ≠ 0 →
    ∀ i ∈ pages 0 1 2, ((x.2 q).kStackPt i).valid = true

section Accounts

variable {ps : List Pid} {x y : Mem × (Pid → Space)} {m m' : Mem} {s : Pid → Space} {z : Space}
  {p q : Pid} {f : ℕ}

theorem Sound.of_stacks (h : Sound ps x) (hheap : y.1.HeapRoom)
    (hs : ∀ q, (y.2 q).kStackPt = (x.2 q).kStackPt) : Sound ps y := by
  refine ⟨hheap, fun q hq hne i hi => ?_⟩
  rw [hs q] at hne ⊢
  exact h.kstacks q hq hne i hi

/-- A process is added that has both pages of its kernel stack, if it has one. -/
theorem Sound.append (h : Sound ps x) (hheap : y.1.HeapRoom) (hs : ∀ q, q ≠ p → y.2 q = x.2 q)
    (hp : ((y.2 p).kStackPt 0).pfn ≠ 0 → ∀ i ∈ pages 0 1 2, ((y.2 p).kStackPt i).valid = true) :
    Sound (ps ++ [p]) y := by
  refine ⟨hheap, fun q hq hne i hi => ?_⟩
  by_cases hqp : q = p
  · subst hqp
    exact hp hne i hi
  · rw [hs q hqp] at hne ⊢
    rcases List.mem_append.1 hq with hq | hq
    · exact h.kstacks q hq hne i hi
    · exact absurd (List.mem_singleton.1 hq) hqp

/-- The account is even if that of the process is whose frames have changed. -/
theorem places_update_iff (hps : ps.Nodup) (hq : q ∈ ps) :
    places ps (m', Function.update s q z) f = places ps (m, s) f ↔
      m'.pool f + z.uses f = m.pool f + (s q).uses f := by
  unfold places
  dsimp only
  simp only [Function.apply_update (fun _ z => Space.uses z f)]
  exact sum_map_move_iff hps hq

/-- Calls of `malloc` and new kernel stacks for the processes `ps` lose no frame. -/
theorem Refill.account (hps : ps.Nodup) (h : Refill x y) (hx : Sound ps x)
    (href : y.1.refused = x.1.refused) (hnew : ∀ q, ((x.2 q).kStackPt 0).pfn = 0 →
      ((y.2 q).kStackPt 0).pfn ≠ 0 → q ∈ ps) :
    Sound ps y ∧ ∀ f, places ps y f = places ps x f := by
  induction h with
  | refl => exact ⟨hx, fun _ => rfl⟩
  | @malloc m s hr ih =>
      have hle := Refill.le_refused hr
      have hle' := Mem.le_refused_malloc m
      dsimp only at href hle
      have hsame : m.refused = x.1.refused := by omega
      obtain ⟨hs, hplaces⟩ := ih hsame hnew
      obtain ⟨hroom, hpool⟩ := (Mem.malloc_accounted _).room hs.heap (by dsimp only; omega)
      refine ⟨⟨hroom, hs.kstacks⟩, fun f => ?_⟩
      rw [← hplaces f]
      unfold places
      exact congrArg (· + _) (hpool f)
  | @stack m s r q hr hq hk ih =>
      have htaken := initKStack_taken hk
      obtain ⟨hcount, hvalid⟩ := initKStack_kept hk
      have hsame : m.refused = x.1.refused := by
        rw [← href, htaken]
        rfl
      have hq' : q ∈ ps := by
        refine hnew q ?_ ?_
        · by_contra hne
          exact hr.stack_ne_zero hne hq
        · dsimp only
          rw [Function.update_self]
          exact initKStack_pfn hk
      obtain ⟨hs, hplaces⟩ := ih hsame fun q' hq₀ hne => by
        by_cases hqq : q' = q
        · exact hqq ▸ hq'
        · refine hnew q' hq₀ ?_
          dsimp only
          rwa [Function.update_of_ne hqq]
      refine ⟨⟨?_, fun q' hmem hne i hi => ?_⟩, fun f => ?_⟩
      · rw [htaken]
        exact hs.heap.taken _
      · by_cases hqq : q' = q
        · subst hqq
          simp only [Function.update_self]
          exact hvalid i hi
        · simp only [Function.update_of_ne hqq] at hne ⊢
          exact hs.kstacks q' hmem hne i hi
      · rw [← hplaces f]
        refine (places_update_iff hps hq').2 ?_
        have hsplit := hcount f
        unfold Mem.pool Space.uses
        dsimp only
        rw [(initKStack_sameKernel hk).kernelUses, stackUses.eq_1 (s q).kStackPt, if_pos hq]
        omega

end Accounts

namespace Kernel

variable {σ σ' τ : Kernel} {l : Label} {ps : List Pid} {p q : Pid} {o : Outcome} {li : Exe}
  {f : ℕ}

/-- The memory of the kernel and the live processes is sound. -/
def Sound (σ : Kernel) : Prop := Yalnix.Sound σ.live (σ.mem, σ.space)

/-- The account after a loop over user pages of `p`. -/
theorem setMap_account {r : Bool × Mem × PageTable} {x : Space} (hps : ps.Nodup) (hp : p ∈ ps)
    (hx : x.kStackPt = (σ.space p).kStackPt) :
    (∀ f, Yalnix.places ps ((σ.setMap p r x).mem, (σ.setMap p r x).space) f =
        Yalnix.places ps (σ.mem, σ.space) f) ↔
      ∀ f, r.2.1.pool f + usesOn userPages r.2.2 f =
        σ.mem.pool f + usesOn userPages (σ.space p).uPageTable f := by
  refine forall_congr' fun f => ?_
  change Yalnix.places ps (r.2.1, Function.update σ.space p { x with uPageTable := r.2.2 }) f =
    _ ↔ _
  rw [places_update_iff hps hp]
  unfold Space.uses
  dsimp only
  rw [hx]
  omega

theorem setMap_kStackPt {r : Bool × Mem × PageTable} {x : Space}
    (hx : x.kStackPt = (σ.space p).kStackPt) (q : Pid) :
    ((σ.setMap p r x).space q).kStackPt = (σ.space q).kStackPt := by
  by_cases hq : q = p
  · rw [hq, setMap_self]
    exact hx
  · rw [setMap_of_ne _ _ hq]

/-- A Brk loses frames if it adds a page that is mapped. -/
theorem sysBrk_account (hps : σ.live.Nodup) (hp : p ∈ σ.live) (hs : σ.Sound)
    (h : σ.sysBrk p = some (o, σ')) (href : σ'.mem.refused = σ.mem.refused) : σ'.Sound ∧
      ((∀ f, σ'.places f = σ.places f) ↔
        ∀ i, σ.BrkAdds p i → ((σ.space p).uPageTable i).valid = false) := by
  obtain ⟨r, hgrab, h⟩ := Option.map_eq_some_iff.1 h
  change grabPages (pages (σ.space p).nextHeapPn 1 (σ.brkPages p)) _ _ = _ at hgrab
  obtain ⟨x, hx, rfl⟩ : ∃ x : Space, x.kStackPt = (σ.space p).kStackPt ∧ σ' = σ.setMap p r x := by
    split at h
    · obtain ⟨-, rfl⟩ := Prod.mk.inj h
      exact ⟨_, by rfl, rfl⟩
    · obtain ⟨-, rfl⟩ := Prod.mk.inj h
      exact ⟨_, by rfl, rfl⟩
  have htaken := (grabPages_taken hgrab href).2
  have hunmapped : Unmapped (pages (σ.space p).nextHeapPn 1 (σ.brkPages p))
      (σ.space p).uPageTable ↔ ∀ i, σ.BrkAdds p i → ((σ.space p).uPageTable i).valid = false := by
    unfold Unmapped
    simp only [mem_brkPages, nodup_pages_up, true_and]
  rw [← hunmapped, ← grabPages_pool_iff hgrab href]
  refine ⟨Yalnix.Sound.of_stacks hs ?_ (setMap_kStackPt hx), setMap_account hps hp hx⟩
  rw [setMap_mem, htaken]
  exact hs.heap.taken _

/-- Growing the stack loses frames if one of the new pages is mapped. -/
theorem growUserStack_account (hps : σ.live.Nodup) (hp : p ∈ σ.live) (hs : σ.Sound)
    (h : σ.growUserStack p = some σ') (href : σ'.mem.refused = σ.mem.refused) : σ'.Sound ∧
      ((∀ f, σ'.places f = σ.places f) ↔
        ∀ i ∈ σ.stackPages p, ((σ.space p).uPageTable i).valid = false) := by
  obtain ⟨r, hgrow, rfl⟩ := Option.map_eq_some_iff.1 h
  have hgrab := growStack_grabs hgrow href
  have htaken := (grabPages_taken hgrab href).2
  have hunmapped : Unmapped (σ.stackPages p) (σ.space p).uPageTable ↔
      ∀ i ∈ σ.stackPages p, ((σ.space p).uPageTable i).valid = false :=
    and_iff_right (nodup_pages_down _ _)
  rw [← hunmapped, ← grabPages_pool_iff hgrab href]
  let x : Space := { σ.space p with nextStackPn := σ.stackEnd }
  refine ⟨Yalnix.Sound.of_stacks hs ?_ (setMap_kStackPt (σ := σ) (r := (true, r)) (x := x) rfl),
    setMap_account (σ := σ) (r := (true, r)) (x := x) hps hp rfl⟩
  change r.1.HeapRoom
  rw [htaken]
  exact hs.heap.taken _

/-- A program that is mapped loses frames if two of its pages are one. -/
theorem mapProgram_account {n : ℕ} {b : Bool} (hps : ps.Nodup) (hp : p ∈ ps)
    (hs : Yalnix.Sound ps (σ.mem, σ.space)) (hok : σ.mem.AllOk)
    (h : σ.mapProgram li n p = some (b, σ')) (href : σ'.mem.refused = σ.mem.refused) :
    Yalnix.Sound ps (σ'.mem, σ'.space) ∧
      ((∀ f, Yalnix.places ps (σ'.mem, σ'.space) f = Yalnix.places ps (σ.mem, σ.space) f) ↔
        (li.programPages n).Nodup) := by
  obtain ⟨x, hx⟩ := mapProgram_loop σ li n p
  rw [hx] at h
  obtain ⟨r, hgrab, he⟩ := Option.map_eq_some_iff.1 h
  obtain ⟨-, rfl⟩ := Prod.mk.inj he
  rw [setMap_mem] at href
  have hfreed : σ.mem.refused ≤ (σ.freedPages p).1.refused := le_refused_freePages
  have hle := le_refused_grabPages hgrab
  have hsame : (σ.freedPages p).1.refused = σ.mem.refused := by omega
  obtain ⟨hroom, hpool⟩ := freePages_room hs.heap hok nodup_userPages hsame
  have href' : r.2.1.refused = (σ.freedPages p).1.refused := by omega
  obtain ⟨hr, htaken⟩ := grabPages_taken hgrab href'
  have hinvalid : ∀ i ∈ userPages, ((σ.freedPages p).2 i).valid = false := by
    intro i hi
    rw [freedPages, freePages_table, if_pos hi]
    exact Pte.freed_valid _
  have hin : ∀ i ∈ li.programPages n, inTable i := by
    rcases grabPages_cases hgrab with ⟨-, hin, -⟩ | ⟨hfail, -⟩
    · exact hin
    · exact absurd (hr.symm.trans hfail) (by simp)
  have hunmapped : Unmapped (li.programPages n) (σ.freedPages p).2 ↔ (li.programPages n).Nodup :=
    and_iff_left fun i hi => hinvalid i (inTable_userPages.2 (hin i hi))
  rw [← hunmapped, ← grabPages_pool_iff hgrab href', if_pos hr]
  refine ⟨Yalnix.Sound.of_stacks hs ?_ (setMap_kStackPt rfl), ?_⟩
  · rw [setMap_mem, htaken]
    exact hroom.taken _
  · rw [setMap_account (x := li.limits n (σ.space p)) hps hp rfl]
    refine forall_congr' fun f => ?_
    have hgiven : (σ.freedPages p).1.pool f =
        σ.mem.pool f + usesOn userPages (σ.space p).uPageTable f := hpool f
    rw [hgiven, usesOn_eq_zero hinvalid, Nat.add_zero]

theorem le_refused_mapProgram {n : ℕ} {b : Bool} (h : σ.mapProgram li n p = some (b, σ')) :
    σ.mem.refused ≤ σ'.mem.refused := by
  obtain ⟨x, hx⟩ := mapProgram_loop σ li n p
  rw [hx] at h
  obtain ⟨r, hgrab, he⟩ := Option.map_eq_some_iff.1 h
  obtain ⟨-, rfl⟩ := Prod.mk.inj he
  have hfreed : σ.mem.refused ≤ (σ.freedPages p).1.refused := le_refused_freePages
  exact hfreed.trans (le_refused_grabPages hgrab)

theorem protect_kStackPt (σ : Kernel) (li : Exe) (p q : Pid) :
    ((σ.protect li p).space q).kStackPt = (σ.space q).kStackPt := by
  by_cases hq : q = p
  · rw [hq, protect_self]
  · rw [protect_of_ne hq]

/-- `load_program` loses frames if it maps a program two of whose pages are one. -/
theorem loadProgram_account {file : Option Exe} {args : Option (List (List Byte))} {rc : Int}
    (hps : ps.Nodup) (hp : p ∈ ps) (hs : Yalnix.Sound ps (σ.mem, σ.space)) (hok : σ.mem.AllOk)
    (h : σ.loadProgram file args p = some (rc, σ')) (href : σ'.mem.refused = σ.mem.refused) :
    Yalnix.Sound ps (σ'.mem, σ'.space) ∧
      ((∀ f, Yalnix.places ps (σ'.mem, σ'.space) f = Yalnix.places ps (σ.mem, σ.space) f) ↔
        ∀ li ∈ file, ∀ av ∈ args, li.Accepted av →
          (li.programPages (stackNpg av).toNat).Nodup) := by
  by_cases hacc : ∃ li ∈ file, ∃ av ∈ args, li.Accepted av
  swap
  · have hnone : ∀ li ∈ file, ∀ av ∈ args, li.Accepted av →
        (li.programPages (stackNpg av).toNat).Nodup :=
      fun li hli av hav ha => absurd ⟨li, hli, av, hav, ha⟩ hacc
    rcases loadProgram_space h with ⟨hspace, -, hmem | hmem⟩ |
      ⟨li, hli, av, hav, b, τ, ha, -⟩
    · rw [hmem, hspace]
      exact ⟨hs, iff_of_true (fun _ => rfl) hnone⟩
    · rw [hmem] at href
      obtain ⟨hroom, hpool⟩ := (Mem.malloc_accounted _).room hs.heap href
      rw [hmem, hspace]
      exact ⟨⟨hroom, hs.kstacks⟩, iff_of_true (fun f => congrArg (· + _) (hpool f)) hnone⟩
    · exact absurd ⟨li, hli, av, hav, ha⟩ hacc
  obtain ⟨li, rfl, av, rfl, ha⟩ := hacc
  rw [loadProgram_accepted ha hok.ok] at h
  obtain ⟨⟨b, τ⟩, hmap, h⟩ := Option.bind_eq_some_iff.1 h
  obtain ⟨hmem, hspace⟩ : σ'.mem = τ.mem ∧
      (σ'.space = τ.space ∨ σ'.space = (τ.protect li p).space) := by
    split at h
    · obtain ⟨hmem, hspace, -⟩ := fillProgram_space h
      exact ⟨hmem, hspace⟩
    · obtain ⟨-, rfl⟩ := Prod.mk.inj (Option.some.inj h)
      exact ⟨rfl, Or.inl rfl⟩
  -- the protection of the text moves no frame
  have hprotect : (∀ f, Yalnix.places ps (σ'.mem, σ'.space) f =
      Yalnix.places ps (τ.mem, τ.space) f) ∧
        ∀ q, (σ'.space q).kStackPt = (τ.space q).kStackPt := by
    rw [hmem]
    rcases hspace with hspace | hspace
    · rw [hspace]
      exact ⟨fun _ => rfl, fun _ => rfl⟩
    · rw [hspace]
      refine ⟨fun f => ?_, protect_kStackPt τ li p⟩
      unfold Yalnix.places
      dsimp only
      simp only [protect_uses]
  have hmalloc := Mem.le_refused_malloc σ.mem
  have hmapped : σ.mem.malloc.2.refused ≤ τ.mem.refused := le_refused_mapProgram hmap
  rw [hmem] at href
  have hone : σ.mem.malloc.2.refused = σ.mem.refused := by omega
  obtain ⟨hroom, hpool⟩ := (Mem.malloc_accounted _).room hs.heap hone
  have hsound : Yalnix.Sound ps (σ.mem.malloc.2, σ.space) := ⟨hroom, hs.kstacks⟩
  have hplaces : ∀ f, Yalnix.places ps (σ.mem.malloc.2, σ.space) f =
      Yalnix.places ps (σ.mem, σ.space) f := fun f => congrArg (· + _) (hpool f)
  obtain ⟨hs', hiff⟩ := mapProgram_account (σ := (σ.setSp p (argTable av)).malloc.2) hps hp
    hsound hok.malloc hmap (href.trans hone.symm)
  refine ⟨hs'.of_stacks (hmem ▸ hs'.heap) hprotect.2, fun hall => ?_, fun hall f => ?_⟩
  · intro li' hli av' hav _
    obtain rfl := Option.some.inj hli
    obtain rfl := Option.some.inj hav
    exact hiff.1 fun f => (hprotect.1 f).symm.trans ((hall f).trans (hplaces f).symm)
  · have hkept := hiff.2 (hall li rfl av rfl ha) f
    exact (hprotect.1 f).trans (hkept.trans (hplaces f))

/-- An Exec loses frames if it gets to the mapping of a program two of whose pages are one. -/
theorem sysExec_account (hps : σ.live.Nodup) (hp : p ∈ σ.live) (hs : σ.Sound)
    (hok : σ.mem.AllOk) (h : σ.sysExec p = some (o, σ'))
    (href : σ'.mem.refused = σ.mem.refused) : σ'.Sound ∧ ((∀ f, σ'.places f = σ.places f) ↔
      (σ.badPointer p (σ.reg 1) = false → ∀ li ∈ σ.world.file,
        ∀ av ∈ σ.readArgs (2 ^ 18 + 1) (σ.reg 1), li.Accepted av →
          (li.programPages (stackNpg av).toNat).Nodup)) := by
  unfold sysExec at h
  dsimp only at h
  split at h
  · rename_i hbad
    obtain ⟨-, rfl⟩ := Prod.mk.inj (Option.some.inj h)
    refine ⟨hs, iff_of_true (fun _ => rfl) fun hgood => ?_⟩
    exact absurd (hbad.symm.trans hgood) (by simp)
  rename_i hgood
  obtain ⟨⟨rc, τ⟩, hload, h⟩ := Option.map_eq_some_iff.1 h
  have hlive : τ.live = σ.live := ((loadProgram_touches hload).same .pids (by simp)).2
  obtain ⟨hmem, hspace, hlive'⟩ : σ'.mem = τ.mem ∧ σ'.space = τ.space ∧ σ'.live = σ.live := by
    split at h
    · obtain ⟨-, rfl⟩ := Prod.mk.inj h
      exact ⟨rfl, rfl, hlive⟩
    · obtain ⟨-, rfl⟩ := Prod.mk.inj h
      exact ⟨rfl, rfl, hlive⟩
  rw [hmem] at href
  obtain ⟨hs', hiff⟩ := loadProgram_account hps hp hs hok hload href
  unfold Kernel.Sound Kernel.places
  rw [hmem, hspace, hlive']
  refine ⟨hs', hiff.trans ⟨fun hall _ => hall, fun hall => hall ?_⟩⟩
  exact Bool.eq_false_iff.2 hgood

/-! ## Fork and Exit -/

theorem forkMem_accounted (σ : Kernel) : Mem.Accounted σ.mem σ.forkMem :=
  ((Mem.malloc_accounted _).trans (Mem.malloc_accounted _)).trans (Mem.malloc_accounted _)

/-- A child has the first frames of the list, each of them once. -/
theorem Forked.uses_eq (h : Forked σ p τ) (hframes : σ.forkFrames p ≤ σ.forkMem.supply.length)
    (f : ℕ) : (τ.space σ.nextPid).uses f =
      (σ.forkMem.freeFrames.take (σ.forkFrames p)).count f := by
  have hlen : (σ.space p).validPages.length ≤ (σ.forkMem.supply.drop 2).length := by
    unfold forkFrames at hframes
    rw [List.length_drop]
    omega
  have huser := usesOn_copied_eq (t := fun _ => {}) (σ.space p).uPageTable
    ⟨(σ.space p).nodup_validPages, fun _ _ => rfl⟩
    (fun i hi => (Space.mem_validPages.1 hi).1) hlen f
  have hnone : usesOn userPages (fun _ => {}) f = 0 := usesOn_eq_zero fun _ _ => rfl
  rw [hnone, Nat.zero_add] at huser
  have hstack : stackUses (assign (fun i => σ.malloc.1.fill (userPagetableSize + i)) (pages 0 1 2)
      (σ.forkMem.supply.map Pte.rw)) f = (σ.forkMem.supply.take 2).count f := by
    unfold forkFrames at hframes
    cases hs : σ.forkMem.supply with
    | nil => simp [hs] at hframes
    | cons a fs =>
        have ha : a ≠ 0 := Mem.ne_zero_of_mem_supply (m := σ.forkMem) (by simp [hs])
        cases fs with
        | nil =>
            rw [hs, List.length_singleton] at hframes
            omega
        | cons b fs =>
            simp [pages, stackUses, Pte.rw, List.count_cons, ha]
            omega
  rw [← Mem.take_supply hframes, forkFrames, List.take_add, List.count_append, h.child, Space.uses,
    huser, hstack]
  exact Nat.add_comm _ _

/-- A Fork that has all its frames loses none. -/
theorem Forked.account (h : Forked σ p τ) (hframes : σ.forkFrames p ≤ σ.forkMem.supply.length)
    (hnew : σ.nextPid ∉ σ.live) (hs : σ.Sound) (href : τ.mem.refused = σ.mem.refused) :
    τ.Sound ∧ ∀ f, τ.places f = σ.places f := by
  rw [h.mem] at href
  obtain ⟨hroom, hpool⟩ := (forkMem_accounted σ).room hs.heap href
  constructor
  · unfold Kernel.Sound
    rw [h.live]
    have hheap : τ.mem.HeapRoom := by
      rw [h.mem]
      exact hroom.taken _
    refine hs.append hheap h.space fun _ i hi => ?_
    have htwo : (pages 0 1 2).length ≤ σ.forkMem.supply.length := by
      unfold forkFrames at hframes
      rw [length_pages]
      omega
    obtain ⟨g, -, he⟩ := assign_rw (t := fun i => σ.malloc.1.fill (userPagetableSize + i)) htwo hi
    dsimp only
    rw [h.child]
    dsimp only
    rw [he]
    rfl
  · intro f
    have huses := h.uses_eq hframes f
    have hsame := hpool f
    have hsplit := congrArg (List.count f)
      (List.take_append_drop (σ.forkFrames p) σ.forkMem.freeFrames)
    rw [List.count_append] at hsplit
    have hothers : (σ.live.map fun q => (τ.space q).uses f) =
        σ.live.map fun q => (σ.space q).uses f := by
      apply List.map_congr_left
      intro q hq
      rw [h.space q]
      rintro rfl
      exact hnew hq
    have hkernel : τ.mem.kernelUses f = σ.forkMem.kernelUses f := by
      rw [h.mem]
      rfl
    have hfree : τ.mem.freeFrames = σ.forkMem.freeFrames.drop (σ.forkFrames p) := by
      rw [h.mem, Mem.taken_freeFrames]
    unfold Kernel.places Yalnix.places
    dsimp only
    rw [h.live, List.map_append, List.sum_append, hothers, List.map_singleton, List.sum_singleton]
    unfold Mem.pool at hsame ⊢
    rw [hkernel, hfree]
    omega

/-- A Fork loses no frame. -/
theorem sysFork_account (hps : σ.live.Nodup) (hbound : ∀ q ∈ σ.live, 0 ≤ q ∧ q < σ.nextPid)
    (hp : p ∈ σ.live) (hs : σ.Sound) (hok : σ.mem.AllOk) (h : σ.sysFork p = some (o, σ'))
    (href : σ'.mem.refused = σ.mem.refused) : σ'.Sound ∧ ∀ f, σ'.places f = σ.places f := by
  obtain ⟨h₀, hlt⟩ := hbound p hp
  obtain ⟨τ, hforked, hframes, -, rfl⟩ := sysFork_forked hok h₀ hlt h href
  have hnew : σ.nextPid ∉ σ.live := fun hmem => lt_irrefl _ (hbound _ hmem).2
  have hready := readyInsert_touches τ σ.nextPid
  have hlive : (τ.readyInsert σ.nextPid).2.live = τ.live := (hready.same .pids (by simp)).2
  have hrefill : Refill (τ.mem, τ.space)
      ((τ.readyInsert σ.nextPid).2.mem, (τ.readyInsert σ.nextPid).2.space) :=
    hready.same .frames (by simp)
  have hle : τ.mem.refused ≤ (τ.readyInsert σ.nextPid).2.mem.refused := hrefill.le_refused
  have hle' : σ.mem.refused ≤ τ.mem.refused := by
    rw [hforked.mem]
    exact (forkMem_accounted σ).refused
  obtain ⟨hs₁, hkept₁⟩ := hforked.account hframes hnew hs (by omega)
  have hnodup : τ.live.Nodup := by
    rw [hforked.live]
    exact hps.append (List.nodup_singleton _) (List.disjoint_singleton.2 hnew)
  obtain ⟨hs₂, hkept₂⟩ := hrefill.account hnodup hs₁ (by dsimp only; omega)
    fun q hq hne => absurd hq hne
  unfold Kernel.Sound Kernel.places
  rw [hlive]
  exact ⟨hs₂, fun f => (hkept₂ f).trans (hkept₁ f)⟩

theorem le_refused_freeSpace (σ : Kernel) (p : Pid) :
    σ.mem.refused ≤ (σ.freeSpace p).mem.refused := by
  have huser : σ.mem.refused ≤ (freePages userPages σ.mem (σ.space p).uPageTable).1.refused :=
    le_refused_freePages
  exact huser.trans le_refused_freePages

/-- A process that exits gives all its frames back. -/
theorem freeSpace_account (hps : ps.Nodup) (hp : p ∈ ps)
    (hs : Yalnix.Sound ps (σ.mem, σ.space)) (hok : σ.mem.AllOk)
    (hstack : ((σ.space p).kStackPt 0).pfn ≠ 0)
    (href : (σ.freeSpace p).mem.refused = σ.mem.refused) :
    Yalnix.Sound (ps.erase p) ((σ.freeSpace p).mem, (σ.freeSpace p).space) ∧
      ∀ f, Yalnix.places (ps.erase p) ((σ.freeSpace p).mem, (σ.freeSpace p).space) f =
        Yalnix.places ps (σ.mem, σ.space) f := by
  have hle₁ : σ.mem.refused ≤ (freePages userPages σ.mem (σ.space p).uPageTable).1.refused :=
    le_refused_freePages
  have hle₂ : (freePages userPages σ.mem (σ.space p).uPageTable).1.refused ≤
      (σ.freeSpace p).mem.refused := le_refused_freePages
  have hheap : σ.mem.HeapRoom := hs.heap
  obtain ⟨hroom, huser⟩ := freePages_room (t := (σ.space p).uPageTable) hheap hok nodup_userPages
    (by omega)
  have hkeeps : (freePages (pages 0 1 2) (freePages userPages σ.mem (σ.space p).uPageTable).1
      (σ.space p).kStackPt).1.refused =
        (freePages userPages σ.mem (σ.space p).uPageTable).1.refused := by
    change (σ.freeSpace p).mem.refused = _
    omega
  obtain ⟨hroom', hkernel⟩ := freePages_room hroom (hok.freePages _ _) (nodup_pages_up 0 2) hkeeps
  have hsame : ∀ q ∈ ps.erase p, (σ.freeSpace p).space q = σ.space q := by
    intro q hq
    exact Function.update_of_ne (hps.mem_erase_iff.1 hq).1 _ _
  constructor
  · refine ⟨hroom', fun q hq hne i hi => ?_⟩
    dsimp only at hne ⊢
    rw [hsame q hq] at hne ⊢
    exact hs.kstacks q (List.mem_of_mem_erase hq) hne i hi
  · intro f
    have hvalid := hs.kstacks p hp hstack
    have hstackUses : usesOn (pages 0 1 2) (σ.space p).kStackPt f =
        stackUses (σ.space p).kStackPt f := by
      rw [stackUses, if_neg hstack]
      change ([0, 1].map fun i => ((σ.space p).kStackPt i).uses f).sum = _
      simp only [List.map_cons, List.map_nil, List.sum_cons, List.sum_nil, Nat.add_zero]
      rw [Pte.uses_valid (hvalid 0 (by decide)), Pte.uses_valid (hvalid 1 (by decide))]
    have hothers : ((ps.erase p).map fun q => ((σ.freeSpace p).space q).uses f) =
        (ps.erase p).map fun q => (σ.space q).uses f :=
      List.map_congr_left fun q hq => by rw [hsame q hq]
    have hsum := List.sum_map_erase (fun q => (σ.space q).uses f) hp
    have hfree : (σ.freeSpace p).mem.pool f = σ.mem.pool f + (σ.space p).uses f := by
      have hfirst := huser f
      have hsecond := hkernel f
      change (freePages (pages 0 1 2) (freePages userPages σ.mem (σ.space p).uPageTable).1
        (σ.space p).kStackPt).1.pool f = _
      unfold Space.uses
      omega
    unfold Yalnix.places
    dsimp only
    rw [hothers]
    omega

/-- An Exit, with what comes before it and after it, loses no frame. -/
theorem exit_account {x y : Mem × (Pid → Space)} (hps : ps.Nodup) (hp : p ∈ ps)
    (hx : Yalnix.Sound ps x) (hok : x.1.AllOk) (hstack : ((x.2 p).kStackPt 0).pfn ≠ 0)
    (hτ : Refill x (τ.mem, τ.space))
    (h : Refill ((τ.freeSpace p).mem, (τ.freeSpace p).space) y)
    (href : y.1.refused = x.1.refused) (hnew : ∀ q, ((x.2 q).kStackPt 0).pfn = 0 →
      ((y.2 q).kStackPt 0).pfn ≠ 0 → q ∈ ps.erase p) :
    Yalnix.Sound (ps.erase p) y ∧ ∀ f, Yalnix.places (ps.erase p) y f = Yalnix.places ps x f := by
  have hle₁ : x.1.refused ≤ τ.mem.refused := hτ.le_refused
  have hle₂ := le_refused_freeSpace τ p
  have hle₃ : (τ.freeSpace p).mem.refused ≤ y.1.refused := h.le_refused
  have hfreed : ∀ q, (((τ.freeSpace p).space q).kStackPt 0).pfn =
      ((τ.space q).kStackPt 0).pfn := freeSpace_stack τ p
  obtain ⟨hs₁, hkept₁⟩ := hτ.account hps hx (by dsimp only; omega) fun q hq hne =>
    List.mem_of_mem_erase (hnew q hq (h.stack_ne_zero ((hfreed q).trans_ne hne)))
  obtain ⟨hs₂, hkept₂⟩ := freeSpace_account hps hp hs₁ (Mem.AllOk.refill hok hτ)
    (hτ.stack_ne_zero hstack) (by omega)
  obtain ⟨hs₃, hkept₃⟩ := h.account (hps.erase p) hs₂ (by dsimp only; omega) fun q hq hne => by
    refine hnew q ?_ hne
    by_contra hold
    exact hτ.stack_ne_zero hold ((hfreed q).symm.trans hq)
  exact ⟨hs₃, fun f => (hkept₃ f).trans ((hkept₂ f).trans (hkept₁ f))⟩

end Kernel

end Yalnix
