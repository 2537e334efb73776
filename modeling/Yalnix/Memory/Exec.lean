import Yalnix.Memory.Load

/-!
# What Exec starts

With frames and kernel memory available, Exec of a well-formed executable is decided by the
pointer that it gets and the checks of `load_program`: it leaves everything as it was, or the
process starts at the entry point with the image of the program and its arguments.
-/

namespace Yalnix

open Transition

variable {li : Exe} {args : List (List Byte)} {n : ℕ}

namespace Kernel

variable {σ σ' τ : Kernel} {p : Pid} {a : Word} {rc : Int} {o : Outcome}

/-! ## The load -/

/-- A load of a well-formed program, with kernel memory and frames for its pages, changes
nothing or prepares the program, and the checks decide which. -/
theorem loadProgram_started (hwf : li.WellFormed) (hargs : li.SizesTrue args)
    (hs : ∀ s ∈ args, 0 ∉ s) (hq : σ.ptbr1 = some p)
    (hframes : (σ.mem.freeFrames ++ (σ.space p).userFrames).Nodup)
    (hok : σ.mem.malloc.1.ok = true)
    (h : σ.loadProgram (some li) (some args) p = some (rc, σ'))
    (href : σ'.mem.refused = σ.mem.refused) :
    ¬li.Accepted args ∧ rc = error ∧ σ' = σ ∨
      li.Accepted args ∧ rc = 0 ∧ (σ'.startUser p).Started p li args := by
  by_cases hacc : li.Accepted args
  swap
  · rw [loadProgram_refused hacc] at h
    obtain ⟨rfl, rfl⟩ := Prod.mk.inj (Option.some.inj h)
    exact .inl ⟨hacc, rfl, rfl⟩
  have hload := h
  rw [loadProgram_accepted hacc hok] at h
  obtain ⟨⟨m, τ⟩, hmap, h⟩ := Option.bind_eq_some_iff.1 h
  cases m with
  | false =>
      -- a page without a frame would have been a refusal
      obtain ⟨-, rfl⟩ := Prod.mk.inj (Option.some.inj h)
      have hlt := ((mapProgram_cases hmap).resolve_left fun h => absurd h.1 (by simp)).2
      have hfreed : σ.mem.malloc.2.refused ≤
          ((σ.setSp p (argTable args)).malloc.2.freedPages p).1.refused := le_refused_freePages
      have hmalloc := Mem.le_refused_malloc σ.mem
      change τ.mem.refused = σ.mem.refused at href
      omega
  | true =>
      obtain ⟨τ', hload', -, hstarted⟩ :=
        loadProgram_mapped hwf hargs hs hq hframes hok hacc hmap
      obtain ⟨rfl, rfl⟩ := Prod.mk.inj (Option.some.inj (hload.symm.trans hload'))
      exact .inr ⟨hacc, rfl, hstarted⟩

/-! ## The arguments of the call -/

theorem readString_zero {s : List Byte} (h : σ.readString n a = some s) : 0 ∉ s := by
  induction n generalizing a s with
  | zero => exact absurd h (by simp [readString])
  | succ n ih =>
      rw [readString] at h
      obtain ⟨b, -, h⟩ := Option.bind_eq_some_iff.1 h
      split at h
      · obtain rfl := Option.some.inj h
        exact List.not_mem_nil
      · rename_i hb
        obtain ⟨bs, hbs, rfl⟩ := Option.map_eq_some_iff.1 h
        rw [List.mem_cons, not_or]
        exact ⟨Ne.symm hb, ih hbs⟩

theorem readArgs_zero (h : σ.readArgs n a = some args) : ∀ s ∈ args, 0 ∉ s := by
  induction n generalizing a args with
  | zero => exact absurd h (by simp [readArgs])
  | succ n ih =>
      rw [readArgs] at h
      obtain ⟨w, -, h⟩ := Option.bind_eq_some_iff.1 h
      split at h
      · obtain rfl := Option.some.inj h
        exact fun s hs => absurd hs List.not_mem_nil
      · obtain ⟨s, hs, h⟩ := Option.bind_eq_some_iff.1 h
        obtain ⟨ss, hss, rfl⟩ := Option.map_eq_some_iff.1 h
        exact List.forall_mem_cons.2 ⟨readString_zero hs, ih hss⟩

/-! ## The call -/

/-- An Exec of a well-formed executable passes its checks and starts it, or fails and changes
nothing. -/
theorem sysExec_cases (hwf : li.WellFormed) (hq : σ.ptbr1 = some p)
    (hframes : (σ.mem.freeFrames ++ (σ.space p).userFrames).Nodup)
    (hok : σ.mem.malloc.1.ok = true) (hfile : σ.world.file = some li)
    (hargs : ∀ args, σ.readArgs (2 ^ 18 + 1) (σ.reg 1) = some args → li.SizesTrue args)
    (h : σ.sysExec p = some (o, τ)) (href : τ.mem.refused = σ.mem.refused) :
    (¬(σ.badPointer p (σ.reg 1) = false ∧ ∃ args,
        σ.readArgs (2 ^ 18 + 1) (σ.reg 1) = some args ∧ li.Accepted args) ∧
        o = .ret error ∧ τ = σ) ∨
      ∃ args, σ.badPointer p (σ.reg 1) = false ∧
        σ.readArgs (2 ^ 18 + 1) (σ.reg 1) = some args ∧ li.Accepted args ∧
        o = .restarted ∧ τ.Started p li args := by
  unfold sysExec at h
  dsimp only at h
  split at h
  · rename_i hptr
    obtain ⟨rfl, rfl⟩ := Prod.mk.inj (Option.some.inj h)
    exact .inl ⟨fun hchecks => absurd (hptr.symm.trans hchecks.1) (by simp), rfl, rfl⟩
  rename_i hptr
  obtain ⟨⟨rc, τ'⟩, hload, hend⟩ := Option.map_eq_some_iff.1 h
  rw [hfile] at hload
  cases hread : σ.readArgs (2 ^ 18 + 1) (σ.reg 1) with
  | none =>
      -- the vector is read only behind the test of the entry point
      rw [hread] at hload
      unfold loadProgram at hload
      dsimp only at hload
      split at hload
      · obtain ⟨rfl, rfl⟩ := Prod.mk.inj (Option.some.inj hload)
        obtain ⟨rfl, rfl⟩ := Prod.mk.inj hend
        exact .inl ⟨fun hchecks => absurd hchecks.2 (by simp), rfl, rfl⟩
      · exact absurd hload (by simp)
  | some args =>
      rw [hread] at hload
      have hmem : τ.mem = τ'.mem := by
        dsimp only at hend
        split at hend
        · rw [← (Prod.mk.inj hend).2]
        · rw [← (Prod.mk.inj hend).2]
          rfl
      rcases loadProgram_started hwf (hargs args hread) (readArgs_zero hread) hq hframes hok hload
        (by rw [← hmem, href]) with ⟨hacc, rfl, rfl⟩ | ⟨hacc, rfl, hstarted⟩
      · obtain ⟨rfl, rfl⟩ := Prod.mk.inj hend
        refine .inl ⟨?_, rfl, rfl⟩
        rintro ⟨-, av, hav, hacc'⟩
        obtain rfl := Option.some.inj hav
        exact hacc hacc'
      · rw [if_neg (show ¬(0 : Int) = error by decide)] at hend
        obtain ⟨rfl, rfl⟩ := Prod.mk.inj hend
        exact .inr ⟨args, Bool.eq_false_iff.2 hptr, rfl, hacc, rfl, hstarted⟩

/-! ## Runs -/

/-- The argument vector that an Exec is given. -/
def execArgs (σ : Kernel) (l : Label) : Option (List (List Byte)) :=
  match l.event with
  | .trap u => ((σ.begin l).enter u).readArgs (2 ^ 18 + 1) (u.regs 1)
  | _ => none

/-- An Exec that fails leaves everything as it was, but for the register with the result. -/
def ExecRefused (σ : Kernel) (l : Label) (σ' : Kernel) : Prop :=
  ∃ u, l.event = .trap u ∧ σ' = { σ.begin l with uContext := u.setRet error }

/-- The pointer that an Exec gets and the program pass the tests of `sys_Exec` and
`load_program`. -/
def ExecAccepted (σ : Kernel) (l : Label) (li : Exe) : Prop :=
  ∃ u p args, l.event = .trap u ∧ σ.activeProc = some p ∧
    ((σ.begin l).enter u).badPointer p (u.regs 1) = false ∧ σ.execArgs l = some args ∧
    li.Accepted args

variable {b : Boot} {σ₀ : Kernel} {l : Label} {tr : List (Move Kernel Label)}

/-- An Exec that gets a good pointer and whose program is loaded is made, and starts it. -/
theorem step_exec {u : UserContext} (hl : l.event = .trap u) (hv : u.vector = 0)
    (hc : Call.decode u.code = some .exec) (hu : σ.userMode = true) (hp : σ.activeProc = some p)
    (hptr : ((σ.begin l).enter u).badPointer p (u.regs 1) = false)
    (hload : ((σ.begin l).enter u).loadProgram l.world.file (σ.execArgs l) p = some (0, τ)) :
    σ.step l = some (τ.startUser p) := by
  have hexec : ((σ.begin l).enter u).sysExec p = some (.restarted, τ.startUser p) := by
    rw [execArgs, hl] at hload
    unfold sysExec
    dsimp only
    refine (if_neg (Bool.eq_false_iff.1 hptr)).trans ?_
    change Option.map _ (((σ.begin l).enter u).loadProgram l.world.file
      (((σ.begin l).enter u).readArgs (2 ^ 18 + 1) (u.regs 1)) p) = _
    rw [hload]
    rfl
  rw [step, hl]
  dsimp only
  rw [if_pos hu, hv]
  change σ.activeProc.bind _ = _
  rw [hp, Option.bind_some, trapKernelHdl]
  change (Call.decode u.code).bind _ = _
  rw [hc, Option.bind_some]
  change (((σ.begin l).enter u).sysExec p).map finish = _
  rw [hexec]
  rfl

/-- In every run in which allocations succeed and idle only pauses, an Exec of a well-formed
executable, whose arguments have a size that does not wrap, starts its process with the whole
program and the arguments in place if its pointer and the program pass the checks, and changes
nothing and returns `ERROR` if they do not. -/
theorem run_execs (hok : ∀ a ∈ b.procMallocs, a.ok = true) (h₀ : kernelStart b = some σ₀)
    (h : Run step (fun σ l σ' => σ.Allocates l σ' ∧ σ.IdlePauses l) σ₀ tr σ)
    (hs : σ.step l = some σ') (ha : σ.Allocates l σ') (hl : l.call = some .exec)
    (hfile : l.world.file = some li) (hwf : li.WellFormed)
    (hargs : ∀ args, σ.execArgs l = some args → li.SizesTrue args) :
    ¬σ.ExecAccepted l li ∧ σ.ExecRefused l σ' ∨
      σ.ExecAccepted l li ∧
        ∃ p args, σ.activeProc = some p ∧ σ.execArgs l = some args ∧ σ'.Started p li args := by
  obtain ⟨hinv, hmap⟩ := mapped_of_run hok h₀ h
  have hsteps := step_cases hs
  obtain ⟨u, p, o, τ, hl', -, hp, hrun, rfl, -⟩ := hsteps.of_call hl
  have hu := hsteps.userMode_of_trap hl'
  have hframes := nodup_userFrames (run_owned hok h₀ h) (hinv.live_of_active hp)
  have hvector : σ.execArgs l = ((σ.begin l).enter u).readArgs (2 ^ 18 + 1) (u.regs 1) := by
    rw [execArgs, hl']
  have href : τ.mem.refused = ((σ.begin l).enter u).mem.refused := by
    rw [← finish_mem o, ha.2]
    rfl
  rw [hvector] at hargs
  rcases sysExec_cases (σ := (σ.begin l).enter u) (p := p) hwf ((hmap hu).trans hp) hframes
    (Mem.AllOk.ok ha.begin) hfile hargs hrun href with
      ⟨hchecks, rfl, rfl⟩ | ⟨args, hptr, hread, hacc, rfl, hstarted⟩
  · refine .inl ⟨?_, u, hl', by simp [finish, returnUser, enter, begin, hu]⟩
    rintro ⟨u', q, args, hu', hq', hptr, hread, hacc⟩
    obtain rfl := Event.trap.inj (hu'.symm.trans hl')
    obtain rfl := Option.some.inj (hq'.symm.trans hp)
    exact hchecks ⟨hptr, args, hvector.symm.trans hread, hacc⟩
  · exact .inr ⟨⟨u, p, args, hl', hp, hptr, hvector.trans hread, hacc⟩, p, args, hp,
      hvector.trans hread, hstarted⟩

/-- The small machine, whose init gets three strings. -/
def argsBoot : Boot := { smallBoot with args := fullArgs }

/-- A process calls Exec for a program with all segments, with the vector that init has got. -/
def execFull : Label :=
  { smallCall .exec 0 (argTable fullArgs + 4) 0 with world := { file := some fullExe } }

/-- A child of init makes this call, and the program starts with the three strings. -/
theorem run_execs_child : ∃ σ₀ tr σ σ', kernelStart argsBoot = some σ₀ ∧
    Run step (fun σ l σ' => σ.Allocates l σ' ∧ σ.IdlePauses l) σ₀ tr σ ∧
    σ.step execFull = some σ' ∧ σ.activeProc = some 2 ∧ σ'.Started 2 fullExe fullArgs := by
  obtain ⟨σ₀, tr, σ, h₀, hr, hp, hu, hptr, hread, hrun⟩ := bootExec_state (b := argsBoot)
    (C := fun σ l σ' => σ.Allocates l σ' ∧ σ.IdlePauses l)
    (P := fun σ => σ.activeProc = some 2 ∧ σ.userMode = true ∧
      (σ.callState execFull).badPointer 2 (argTable fullArgs + 4) = false ∧
      σ.execArgs execFull = some fullArgs ∧
      ((((σ.callState execFull).setSp 2 (argTable fullArgs)).malloc.2).mapProgram fullExe
        (stackNpg fullArgs).toNat 2).map
          (fun r => (r.1, decide (r.2.mem.refused = σ.mem.refused))) = some (true, true))
    (t := [smallCall .fork 0 0 0, clockTick, resumption]) (by decide +kernel)
  obtain ⟨⟨m, τ⟩, hmap, he⟩ := Option.map_eq_some_iff.1 hrun
  obtain ⟨rfl, href⟩ := Prod.mk.inj he
  obtain ⟨hinv, hmapped⟩ := mapped_of_run (by decide) h₀ hr
  have hframes := nodup_userFrames (run_owned (by decide) h₀ hr) (hinv.live_of_active hp)
  have hsizes : fullExe.SizesTrue fullArgs := sizesTrue_iff.2 (by decide)
  -- filling the pages is not evaluated: it succeeds because they have been mapped
  obtain ⟨τ', hload, hmem, -⟩ := loadProgram_mapped (σ := σ.callState execFull) fullExe_wellFormed
    hsizes (by decide) ((hmapped hu).trans hp) hframes rfl (by decide) hmap
  rw [← hread] at hload
  have hs : σ.step execFull = some (τ'.startUser 2) := step_exec rfl rfl rfl hu hp hptr hload
  have ha : σ.Allocates execFull (τ'.startUser 2) := by
    refine ⟨fun a ha => absurd ha List.not_mem_nil, ?_⟩
    rw [← of_decide_eq_true href, ← hmem]
    rfl
  refine ⟨σ₀, tr, σ, _, h₀, hr, hs, hp, ?_⟩
  have hexec := run_execs (by decide) h₀ hr hs ha rfl rfl fullExe_wellFormed (fun args hargs => by
    obtain rfl := Option.some.inj (hread.symm.trans hargs)
    exact hsizes)
  have haccepted : σ.ExecAccepted execFull fullExe :=
    ⟨_, 2, fullArgs, rfl, hp, hptr, hread, by decide⟩
  obtain ⟨p, args, hp', hargs, hstarted⟩ := (hexec.resolve_left fun h => h.1 haccepted).2
  obtain rfl := Option.some.inj (hp'.symm.trans hp)
  obtain rfl := Option.some.inj (hargs.symm.trans hread)
  exact hstarted

end Kernel

end Yalnix
