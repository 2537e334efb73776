import Yalnix.Model.Machine

/-!
# What an operation leaves alone

The state of the kernel is seen in views: where processes are queued, where they
will continue in the kernel, which pids are in use, the process tree with the dead
and the waiting parents, the objects and their ids, the locks, and the frames. The
other views are single tables: the sleepers, the pipes, locks, cvars and semaphores with all that
they hold, the terminals, what the handlers of the terminals read in a PCB, the buffers
that PCBs name, the lines that have been received, physical memory, the user contexts
that are saved in PCBs, and the registers that user code runs with.
`Touches vs σ σ'` says that `σ'` looks the same as `σ` in every view outside `vs`.
Each operation gets one such lemma; an invariant of a view is then kept by every
operation that does not touch it.
-/

namespace Yalnix

/-! ## Where a process is -/

namespace Kernel

/-- How often `q` is in a list of processes that are not ready. -/
def blocked (σ : Kernel) (q : Pid) : ℕ :=
  (σ.sleepList.map SleepInfo.pcb).count q + σ.waitList.count q + σ.ioList.count q +
    σ.pipes.sum (fun x => x.pipeWaitList.count q) +
    σ.locks.sum (fun x => x.lockWaitList.count q) +
    σ.cvars.sum (fun x => x.cvarWaitList.count q) + σ.sems.sum (fun x => x.waiting.count q)

/-- How often `q` is in a queue or in the waiting list of an object. -/
def queued (σ : Kernel) (q : Pid) : ℕ := σ.readyQueue.count q + σ.blocked q

end Kernel

/-! ## Refills -/

/-- The frames and page tables that calls of `malloc`, and kernel stacks made for
processes that have none, lead to. -/
inductive Refill : Mem × (Pid → Space) → Mem × (Pid → Space) → Prop
  | refl (x : Mem × (Pid → Space)) : Refill x x
  | malloc {x : Mem × (Pid → Space)} {m : Mem} {s : Pid → Space} :
      Refill x (m, s) → Refill x (m.malloc.2, s)
  | stack {x : Mem × (Pid → Space)} {m : Mem} {s : Pid → Space} {r : Mem × PageTable} (q : Pid) :
      Refill x (m, s) → ((s q).kStackPt 0).pfn = 0 →
        initKStack (pages 0 1 2) m (s q).kStackPt = some r →
        Refill x (r.1, Function.update s q { s q with kStackPt := r.2 })

namespace Refill

theorem trans {x y z : Mem × (Pid → Space)} (h : Refill x y) (h' : Refill y z) :
    Refill x z := by
  induction h' with
  | refl => exact h
  | malloc _ ih => exact .malloc ih
  | stack q _ hq hr ih => exact .stack q ih hq hr

/-- A property of the frames that `malloc` and a new kernel stack keep is kept. -/
theorem induct {P : Mem → (Pid → Space) → Prop} {x y : Mem × (Pid → Space)}
    (h : Refill x y) (hx : P x.1 x.2) (hm : ∀ m s, P m s → P m.malloc.2 s)
    (hk : ∀ m s q r, P m s → ((s q).kStackPt 0).pfn = 0 →
      initKStack (pages 0 1 2) m (s q).kStackPt = some r →
      P r.1 (Function.update s q { s q with kStackPt := r.2 })) : P y.1 y.2 := by
  induction h with
  | refl => exact hx
  | malloc _ ih => exact hm _ _ ih
  | stack q _ hq hr ih => exact hk _ _ q _ ih hq hr

end Refill

/-! ## Views -/

/-- A part of the state that results are about. -/
inductive View where
  | queues | contexts | pids | tree | objects | locks | frames
  | sleepers | pipes | lockTable | cvars | sems | terminals | states | buffers | lines | memory
  | users
  | registers
  deriving DecidableEq

/-- The two states look the same in the view. -/
def View.Same (σ σ' : Kernel) : View → Prop
  | .queues =>
      σ'.activeProc = σ.activeProc ∧ σ'.readyQueue = σ.readyQueue ∧
        σ'.fellThrough = σ.fellThrough ∧ σ'.readied = σ.readied ∧
          σ'.dispatched = σ.dispatched ∧ ∀ q, σ'.queued q = σ.queued q
  | .contexts =>
      σ'.activeProc = σ.activeProc ∧ ∀ q, (σ'.pcb q).kctxt = (σ.pcb q).kctxt
  | .pids => σ'.nextPid = σ.nextPid ∧ σ'.live = σ.live
  | .tree =>
      σ'.family = σ.family ∧ σ'.deadList = σ.deadList ∧ σ'.waitList = σ.waitList
  | .objects =>
      σ'.reclaimList = σ.reclaimList ∧
        (σ'.pipes.list = σ.pipes.list ∧
          ∀ a, (σ'.pipes.cell a).pipeid = (σ.pipes.cell a).pipeid) ∧
        (σ'.locks.list = σ.locks.list ∧
          ∀ a, (σ'.locks.cell a).lockid = (σ.locks.cell a).lockid) ∧
        (σ'.cvars.list = σ.cvars.list ∧
          ∀ a, (σ'.cvars.cell a).cvarid = (σ.cvars.cell a).cvarid)
  | .locks =>
      σ'.locks.list = σ.locks.list ∧
        ∀ a, (σ'.locks.cell a).lockid = (σ.locks.cell a).lockid ∧
          (σ'.locks.cell a).locked = (σ.locks.cell a).locked ∧
          (σ'.locks.cell a).pid = (σ.locks.cell a).pid
  | .frames => Refill (σ.mem, σ.space) (σ'.mem, σ'.space)
  | .sleepers => σ'.sleepList = σ.sleepList
  | .pipes => σ'.pipes = σ.pipes
  | .lockTable => σ'.locks = σ.locks
  | .cvars => σ'.cvars = σ.cvars
  | .sems => σ'.sems = σ.sems ∧ σ'.nextSem = σ.nextSem
  | .terminals =>
      σ'.busyTerminal = σ.busyTerminal ∧ σ'.transmitted = σ.transmitted ∧
        σ'.ioList = σ.ioList
  | .states => ∀ q, (σ'.pcb q).state = (σ.pcb q).state ∧ (σ'.pcb q).ttyId = (σ.pcb q).ttyId
  | .buffers => ∀ q, (σ'.pcb q).buf = (σ.pcb q).buf ∧ (σ'.pcb q).len = (σ.pcb q).len
  | .lines => σ'.receive = σ.receive ∧ σ'.stringLen = σ.stringLen
  | .memory => σ'.phys = σ.phys
  | .users => ∀ q, (σ'.pcb q).uctxt = (σ.pcb q).uctxt
  | .registers => σ'.uContext = σ.uContext ∧ σ'.ptbr1 = σ.ptbr1

theorem View.Same.refl (σ : Kernel) (v : View) : v.Same σ σ := by
  cases v <;> simp [View.Same, Refill.refl]

theorem View.Same.trans {σ σ₁ σ' : Kernel} {v : View} (h : v.Same σ σ₁) (h' : v.Same σ₁ σ') :
    v.Same σ σ' := by
  cases v with
  | frames => exact Refill.trans h h'
  | queues =>
      obtain ⟨ha, hr, hf, hn, hd, hq⟩ := h
      obtain ⟨ha', hr', hf', hn', hd', hq'⟩ := h'
      exact ⟨ha'.trans ha, hr'.trans hr, hf'.trans hf, hn'.trans hn, hd'.trans hd,
        fun q => (hq' q).trans (hq q)⟩
  | contexts =>
      exact ⟨h'.1.trans h.1, fun q => (h'.2 q).trans (h.2 q)⟩
  | pids => exact ⟨h'.1.trans h.1, h'.2.trans h.2⟩
  | tree =>
      obtain ⟨hf, hd, hw⟩ := h
      obtain ⟨hf', hd', hw'⟩ := h'
      exact ⟨hf'.trans hf, hd'.trans hd, hw'.trans hw⟩
  | objects =>
      obtain ⟨hr, hp, hl, hc⟩ := h
      obtain ⟨hr', hp', hl', hc'⟩ := h'
      exact ⟨hr'.trans hr, ⟨hp'.1.trans hp.1, fun a => (hp'.2 a).trans (hp.2 a)⟩,
        ⟨hl'.1.trans hl.1, fun a => (hl'.2 a).trans (hl.2 a)⟩,
        ⟨hc'.1.trans hc.1, fun a => (hc'.2 a).trans (hc.2 a)⟩⟩
  | locks =>
      exact ⟨h'.1.trans h.1, fun a => ⟨(h'.2 a).1.trans (h.2 a).1,
        (h'.2 a).2.1.trans (h.2 a).2.1, (h'.2 a).2.2.trans (h.2 a).2.2⟩⟩
  | sems => exact ⟨h'.1.trans h.1, h'.2.trans h.2⟩
  | terminals =>
      exact ⟨h'.1.trans h.1, h'.2.1.trans h.2.1, h'.2.2.trans h.2.2⟩
  | states => exact fun q => ⟨(h' q).1.trans (h q).1, (h' q).2.trans (h q).2⟩
  | buffers => exact fun q => ⟨(h' q).1.trans (h q).1, (h' q).2.trans (h q).2⟩
  | lines => exact ⟨h'.1.trans h.1, h'.2.trans h.2⟩
  | memory => exact Eq.trans h' h
  | users => exact fun q => (h' q).trans (h q)
  | registers => exact ⟨h'.1.trans h.1, h'.2.trans h.2⟩
  | sleepers => exact Eq.trans h' h
  | pipes => exact Eq.trans h' h
  | lockTable => exact Eq.trans h' h
  | cvars => exact Eq.trans h' h

/-- Only the views `vs` may tell `σ'` from `σ`. -/
structure Touches (vs : List View) (σ σ' : Kernel) : Prop where
  same : ∀ v, v ∉ vs → v.Same σ σ'

namespace Touches

variable {vs w : List View} {σ σ₁ σ' : Kernel}

theorem refl (vs : List View) (σ : Kernel) : Touches vs σ σ := ⟨fun v _ => .refl σ v⟩

theorem trans (h : Touches vs σ σ₁) (h' : Touches vs σ₁ σ') : Touches vs σ σ' :=
  ⟨fun v hv => (h.same v hv).trans (h'.same v hv)⟩

theorem mono (h : Touches vs σ σ') (hvs : vs ⊆ w) : Touches w σ σ' :=
  ⟨fun v hv => h.same v fun hm => hv (hvs hm)⟩

/-- The result of a call, after what has been touched on the way to it. -/
theorem ret {α : Type} {x y : α} (h : Touches vs σ σ₁) (he : some (x, σ₁) = some (y, σ')) :
    Touches vs σ σ' := by
  obtain ⟨-, rfl⟩ := Prod.mk.inj (Option.some.inj he)
  exact h

/-- One operation after another. -/
theorem seq (h : Touches vs σ σ₁) (h' : Touches w σ₁ σ') : Touches (vs ++ w) σ σ' :=
  (h.mono (List.subset_append_left vs w)).trans (h'.mono (List.subset_append_right vs w))

/-- What touches nothing may be followed by anything. -/
theorem after (h : Touches [] σ σ₁) (h' : Touches vs σ₁ σ') : Touches vs σ σ' :=
  (h.mono (List.nil_subset vs)).trans h'

/-- The locks that ids name. -/
theorem find_lock (h : Touches vs σ σ') (hvs : View.objects ∉ vs) (x : Int) :
    σ'.locks.find? (fun l => l.lockid = x) = σ.locks.find? fun l => l.lockid = x := by
  obtain ⟨-, -, ⟨hlist, hid⟩, -⟩ := h.same .objects hvs
  exact Table.find?_congr hlist fun a => by rw [hid a]

end Touches

end Yalnix
