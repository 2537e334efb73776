import Yalnix.Allocation
import Yalnix.Footprint.Step

/-!
# The state after the boot

`Booting σ ps` describes the kernel while `KernelStart` makes the processes `ps`,
and `Booted σ` the state in which init starts to run: init is active, nothing but
idle can be in a queue, and there are no objects.
-/

namespace Yalnix

/-- The processes `ps` have been made and none of them has run. -/
structure Booting (σ : Kernel) (ps : List Pid) : Prop where
  active : σ.activeProc = none
  ready : σ.readyQueue = []
  fell : σ.fellThrough = 0
  readied : σ.readied = []
  dispatched : σ.dispatched = []
  queued : ∀ q, σ.queued q = 0
  kctxt : ∀ q, (σ.pcb q).kctxt = .kernelStart
  nextPid : σ.nextPid = ps.length
  live : σ.live = ps
  family : ∀ q, σ.family q = {}
  deadList : σ.deadList = []
  waitList : σ.waitList = []
  reclaimList : σ.reclaimList = []
  pipes : σ.pipes.list = []
  locks : σ.locks.list = []
  cvars : σ.cvars.list = []
  sems : σ.sems.list = []
  idleLines : σ.busyTerminal = fun _ => false
  transmitted : σ.transmitted = []

namespace Booting

variable {σ σ' : Kernel} {ps : List Pid}

theorem empty (m : Mem) : Booting (Kernel.empty m) [] :=
  ⟨rfl, rfl, rfl, rfl, rfl, fun _ => rfl, fun _ => rfl, rfl, rfl, fun _ => rfl, rfl, rfl, rfl, rfl, rfl,
    rfl, rfl, rfl, rfl⟩

theorem of_touches (h : Booting σ ps) (ht : Touches [.frames, .users, .memory] σ σ') :
    Booting σ' ps := by
  obtain ⟨hactive, hready, hfell, hreadied, hdispatched, hqueued⟩ := ht.same .queues (by simp)
  obtain ⟨hnext, hlive⟩ := ht.same .pids (by simp)
  obtain ⟨hfamily, hdead, hwait⟩ := ht.same .tree (by simp)
  obtain ⟨hreclaim, ⟨hpipes, -⟩, ⟨hlocks, -⟩, hcvars, -⟩ := ht.same .objects (by simp)
  exact {
    active := hactive.trans h.active
    ready := hready.trans h.ready
    fell := hfell.trans h.fell
    readied := hreadied.trans h.readied
    dispatched := hdispatched.trans h.dispatched
    queued := fun q => (hqueued q).trans (h.queued q)
    kctxt := fun q => ((ht.same .contexts (by simp)).2 q).trans (h.kctxt q)
    nextPid := hnext.trans h.nextPid
    live := hlive.trans h.live
    family := fun q => by rw [hfamily, h.family]
    deadList := hdead.trans h.deadList
    waitList := hwait.trans h.waitList
    reclaimList := hreclaim.trans h.reclaimList
    pipes := hpipes.trans h.pipes
    locks := hlocks.trans h.locks
    cvars := hcvars.trans h.cvars
    sems := (congrArg Table.list (ht.same .sems (by simp)).1).trans h.sems
    idleLines := (ht.same .terminals (by simp)).1.trans h.idleLines
    transmitted := (ht.same .terminals (by simp)).2.1.trans h.transmitted }

/-- The part that `init_init` and `init_idle` share makes the next process. -/
theorem bootProc (h : Booting σ ps) {state : ProcState} {uctxt : UserContext}
    {kStackPt : PageTable → Mem → Option (Mem × PageTable)}
    (hb : σ.bootProc state uctxt kStackPt = some σ') :
    Booting σ' (ps ++ [(ps.length : Int)]) := by
  unfold Kernel.bootProc at hb
  dsimp only at hb
  split at hb
  swap
  · exact absurd hb (by simp)
  obtain ⟨r, -, rfl⟩ := Option.map_eq_some_iff.1 hb
  have hm : Booting σ.malloc.2.malloc.2 ps := h.of_touches
    (((Kernel.malloc_touches σ).trans (Kernel.malloc_touches _)).mono (List.nil_subset _))
  exact { hm with
    kctxt := by
      intro q
      by_cases hq : q = σ.malloc.2.malloc.2.nextPid
      · subst hq
        simp
      · simpa [hq] using hm.kctxt q
    nextPid := by
      rw [List.length_append, List.length_singleton, Nat.cast_add, ← hm.nextPid]
      rfl
    live := by
      rw [← hm.nextPid]
      exact congrArg (· ++ [σ.malloc.2.malloc.2.nextPid]) hm.live
    family := by
      intro q
      by_cases hq : q = σ.malloc.2.malloc.2.nextPid
      · subst hq
        simp
      · simpa [hq] using hm.family q }

end Booting

/-- The state in which init starts to run. -/
structure Booted (σ : Kernel) : Prop where
  active : σ.activeProc = some 0
  userMode : σ.userMode = true
  ready : σ.readyQueue = [] ∨ σ.readyQueue = [idle]
  fell : σ.fellThrough = 0
  readied : σ.readied = σ.readyQueue
  dispatched : σ.dispatched = []
  queued : ∀ q, σ.queued q = σ.readyQueue.count q
  kctxt : ∀ q, (σ.pcb q).kctxt = .kernelStart
  nextPid : σ.nextPid = 2
  live : σ.live = [0, idle]
  family : ∀ q, σ.family q = {}
  deadList : σ.deadList = []
  waitList : σ.waitList = []
  reclaimList : σ.reclaimList = []
  pipes : σ.pipes.list = []
  locks : σ.locks.list = []
  cvars : σ.cvars.list = []
  sems : σ.sems.list = []
  idleLines : σ.busyTerminal = fun _ => false
  transmitted : σ.transmitted = []

namespace Kernel

variable {σ σ' : Kernel} {b : Boot}

theorem loadProgram_map_touches {file : Option Exe} {args : Option (List (List Byte))}
    {p : Pid} (h : (σ.loadProgram file args p).map Prod.snd = some σ') :
    Touches [.frames, .users, .memory] σ σ' := by
  obtain ⟨⟨rc, τ⟩, hτ, rfl⟩ := Option.map_eq_some_iff.1 h
  exact loadProgram_touches hτ

theorem initInit_booting {ps : List Pid} (hb : Booting σ ps) (h : σ.initInit b = some σ') :
    Booting σ' (ps ++ [(ps.length : Int)]) := by
  obtain ⟨τ, hτ, h⟩ := Option.bind_eq_some_iff.1 h
  exact (hb.bootProc hτ).of_touches (loadProgram_map_touches h)

theorem initIdle_booting {ps : List Pid} (hb : Booting σ ps) (h : σ.initIdle b = some σ') :
    Booting σ' (ps ++ [(ps.length : Int)]) := by
  obtain ⟨τ, hτ, h⟩ := Option.bind_eq_some_iff.1 h
  exact (hb.bootProc hτ).of_touches (loadProgram_map_touches h)

/-- What `KernelStart` leaves. -/
theorem kernelStart_booted {σ₀ : Kernel} (h : kernelStart b = some σ₀) : Booted σ₀ := by
  unfold kernelStart at h
  obtain ⟨m, -, h⟩ := Option.bind_eq_some_iff.1 h
  obtain ⟨σ₁, h₁, h⟩ := Option.bind_eq_some_iff.1 h
  obtain ⟨σ₂, h₂, h⟩ := Option.bind_eq_some_iff.1 h
  have hb := initIdle_booting (initInit_booting (.empty m) h₁) h₂
  obtain ⟨r, -, rfl⟩ := Option.map_eq_some_iff.1 h
  have hready : (σ₂.readyInsert idle).2.readyQueue = [] ∨
      (σ₂.readyInsert idle).2.readyQueue = [idle] := by
    unfold readyInsert
    rw [listInsert_last, hb.ready]
    split
    · exact .inr rfl
    · exact .inl rfl
  have hreadied : (σ₂.readyInsert idle).2.readied = (σ₂.readyInsert idle).2.readyQueue := by
    unfold readyInsert
    rw [listInsert_last, hb.ready, hb.readied]
    split
    · rfl
    · rfl
  have hblocked : ∀ q, σ₂.blocked q = 0 := by
    intro q
    have hq := hb.queued q
    unfold queued at hq
    omega
  exact {
    active := rfl
    userMode := rfl
    ready := hready
    fell := hb.fell
    readied := hreadied
    dispatched := hb.dispatched
    queued := fun q => congrArg (_ + ·) (hblocked q)
    kctxt := hb.kctxt
    nextPid := hb.nextPid
    live := hb.live
    family := hb.family
    deadList := hb.deadList
    waitList := hb.waitList
    reclaimList := hb.reclaimList
    pipes := hb.pipes
    locks := hb.locks
    cvars := hb.cvars
    sems := hb.sems
    idleLines := hb.idleLines
    transmitted := hb.transmitted }

/-! ## A boot in which every allocation succeeds -/

theorem mapProgram_allOk {li : Exe} {n : ℕ} {p : Pid} {r : Bool × Kernel} (hok : σ.mem.AllOk)
    (h : σ.mapProgram li n p = some r) : r.2.mem.AllOk := by
  have hold := hok.freePages userPages (σ.space p).uPageTable
  obtain ⟨text, htext, h⟩ := Option.bind_eq_some_iff.1 h
  have htextOk := hold.grabPages htext
  split at h
  · obtain rfl := Option.some.inj h
    exact htextOk
  obtain ⟨data, hdata, h⟩ := Option.bind_eq_some_iff.1 h
  have hdataOk := htextOk.grabPages hdata
  split at h
  · obtain rfl := Option.some.inj h
    exact hdataOk
  obtain ⟨stack, hstack, h⟩ := Option.bind_eq_some_iff.1 h
  have hstackOk := hdataOk.grabPages hstack
  split at h
  · obtain rfl := Option.some.inj h
    exact hstackOk
  · obtain rfl := Option.some.inj h
    exact hstackOk

theorem copyOut_mem {a : Word} {bs : List Byte} (h : σ.copyOut a bs = some σ') :
    σ'.mem = σ.mem := by
  obtain ⟨phys, -, rfl⟩ := Option.map_eq_some_iff.1 h
  rfl

theorem copyArgs_mem {cpp cp : Word} {args : List (List Byte)}
    (h : σ.copyArgs cpp cp args = some σ') : σ'.mem = σ.mem := by
  induction args generalizing σ cpp cp with
  | nil =>
      obtain ⟨τ, hτ, h⟩ := Option.bind_eq_some_iff.1 h
      exact (copyOut_mem h).trans (copyOut_mem hτ)
  | cons s args ih =>
      obtain ⟨τ, hτ, h⟩ := Option.bind_eq_some_iff.1 h
      obtain ⟨τ', hτ', h⟩ := Option.bind_eq_some_iff.1 h
      exact (ih h).trans ((copyOut_mem hτ').trans (copyOut_mem hτ))

theorem buildArgs_mem {args : List (List Byte)} (h : σ.buildArgs args = some σ') :
    σ'.mem = σ.mem := by
  unfold buildArgs at h
  dsimp only at h
  obtain ⟨τ, hτ, h⟩ := Option.bind_eq_some_iff.1 h
  obtain ⟨τ', hτ', h⟩ := Option.bind_eq_some_iff.1 h
  rw [copyArgs_mem h, copyOut_mem hτ', copyOut_mem hτ]

theorem readSegment_mem (σ : Kernel) (a : Word) (size : ℕ) (bs : List Byte) :
    (σ.readSegment a size bs).2.mem = σ.mem := by
  unfold readSegment
  cases h : σ.copyOut a (bs.take size) with
  | none => rfl
  | some τ => exact copyOut_mem h

theorem fillProgram_mem {li : Exe} {args : List (List Byte)} {p : Pid} {r : Int × Kernel}
    (h : σ.fillProgram li args p = some r) : r.2.mem = σ.mem := by
  have htext := readSegment_mem σ li.tVaddr li.textSize li.text
  unfold fillProgram at h
  dsimp only at h
  generalize σ.readSegment li.tVaddr li.textSize li.text = text at h htext
  split at h
  · obtain rfl := Option.some.inj h
    exact htext
  have hdata := readSegment_mem text.2 li.idVaddr li.dataSize li.data
  generalize text.2.readSegment li.idVaddr li.dataSize li.data = data at h hdata
  split at h
  · obtain rfl := Option.some.inj h
    exact hdata.trans htext
  obtain ⟨τ, hτ, h⟩ := Option.bind_eq_some_iff.1 h
  obtain ⟨τ', hτ', rfl⟩ := Option.map_eq_some_iff.1 h
  exact (buildArgs_mem hτ').trans ((copyOut_mem hτ).trans (hdata.trans htext))

theorem loadProgram_allOk {file : Option Exe} {args : Option (List (List Byte))} {p : Pid}
    {r : Int × Kernel} (hok : σ.mem.AllOk) (h : σ.loadProgram file args p = some r) :
    r.2.mem.AllOk := by
  unfold loadProgram at h
  cases file with
  | none =>
      obtain rfl := Option.some.inj h
      exact hok
  | some li =>
      dsimp only at h
      split at h
      · obtain rfl := Option.some.inj h
        exact hok
      obtain ⟨args, -, h⟩ := Option.bind_eq_some_iff.1 h
      split at h
      · obtain rfl := Option.some.inj h
        exact hok
      have hbuf : (σ.setSp p (argTable args)).malloc.2.mem.AllOk := hok.malloc
      split at h
      swap
      · obtain rfl := Option.some.inj h
        exact hbuf
      obtain ⟨⟨done, τ⟩, hτ, h⟩ := Option.bind_eq_some_iff.1 h
      have hmap := mapProgram_allOk hbuf hτ
      dsimp only at h
      split at h
      · exact hmap.of_mallocs (congrArg Mem.mallocs (fillProgram_mem h))
      · obtain rfl := Option.some.inj h
        exact hmap

theorem bootProc_allOk {state : ProcState} {uctxt : UserContext}
    {kStackPt : PageTable → Mem → Option (Mem × PageTable)} (hok : σ.mem.AllOk)
    (hk : ∀ t m r, m.AllOk → kStackPt t m = some r → r.1.AllOk)
    (h : σ.bootProc state uctxt kStackPt = some σ') : σ'.mem.AllOk := by
  unfold bootProc at h
  dsimp only at h
  split at h
  · obtain ⟨r, hr, rfl⟩ := Option.map_eq_some_iff.1 h
    exact hk _ _ r hok.malloc.malloc hr
  · exact absurd h (by simp)

theorem bootMem_allOk {m : Mem} (hok : ∀ a ∈ b.procMallocs, a.ok = true)
    (h : bootMem b = some m) : m.AllOk := by
  unfold bootMem at h
  obtain ⟨m', -, h⟩ := Option.bind_eq_some_iff.1 h
  dsimp only at h
  split at h
  · split at h
    · obtain rfl := Option.some.inj h
      exact hok
    · exact absurd h (by simp)
  · exact absurd h (by simp)

theorem initInit_allOk (hok : σ.mem.AllOk) (h : σ.initInit b = some σ') : σ'.mem.AllOk := by
  obtain ⟨τ, hτ, h⟩ := Option.bind_eq_some_iff.1 h
  obtain ⟨⟨rc, τ'⟩, hload, rfl⟩ := Option.map_eq_some_iff.1 h
  exact loadProgram_allOk (bootProc_allOk hok (fun _ _ _ hm hr => hm.initKStack hr) hτ) hload

theorem initIdle_allOk (hok : σ.mem.AllOk) (h : σ.initIdle b = some σ') : σ'.mem.AllOk := by
  obtain ⟨τ, hτ, h⟩ := Option.bind_eq_some_iff.1 h
  obtain ⟨⟨rc, τ'⟩, hload, rfl⟩ := Option.map_eq_some_iff.1 h
  refine loadProgram_allOk (bootProc_allOk hok (fun t m r hm hr => ?_) hτ) hload
  obtain rfl := Option.some.inj hr
  exact hm

/-- When `malloc` fails nowhere in the boot, idle is ready. -/
theorem kernelStart_ready {σ₀ : Kernel} (hok : ∀ a ∈ b.procMallocs, a.ok = true)
    (h : kernelStart b = some σ₀) : σ₀.readyQueue = [idle] := by
  unfold kernelStart at h
  obtain ⟨m, hm, h⟩ := Option.bind_eq_some_iff.1 h
  obtain ⟨σ₁, h₁, h⟩ := Option.bind_eq_some_iff.1 h
  obtain ⟨σ₂, h₂, h⟩ := Option.bind_eq_some_iff.1 h
  have hb := initIdle_booting (initInit_booting (.empty m) h₁) h₂
  have hok₁ := initInit_allOk (σ := empty m) (bootMem_allOk hok hm) h₁
  have hok₂ := initIdle_allOk hok₁ h₂
  obtain ⟨r, -, rfl⟩ := Option.map_eq_some_iff.1 h
  change (σ₂.readyInsert idle).2.readyQueue = [idle]
  rw [readyInsert_ok hok₂, hb.ready]
  rfl

end Kernel

end Yalnix
