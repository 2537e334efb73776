import Yalnix.Placement.Invariant

/-!
# First in, first out

Both scheduling functions take the head of `ready_queue` and put idle back at the
end when it is the head. Idle is in one place at most, so the next process they
look at is never idle again unless idle is alone. Apart from idle, processes are
therefore dispatched in the order in which they became ready.
-/

namespace Yalnix

open Transition

namespace Kernel

variable {σ σ' : Kernel} {l : Label}

/-- Apart from idle, the processes that have been dispatched and those that are
ready are the ones that have become ready, in this order. -/
def Fifo (σ : Kernel) : Prop := others σ.dispatched ++ others σ.readyQueue = others σ.readied

theorem Fifo.flows {τ : Kernel} (hσ : σ.Fifo) (h : Flows σ τ) : τ.Fifo := by
  obtain ⟨ps, ds, hreadied, hdispatched, hlaw, -⟩ := h
  calc others τ.dispatched ++ others τ.readyQueue
      = others σ.dispatched ++ (others ds ++ others τ.readyQueue) := by
        rw [hdispatched, others_append, List.append_assoc]
    _ = others σ.dispatched ++ others σ.readyQueue ++ others ps := by
        rw [← hlaw, List.append_assoc]
    _ = others τ.readied := by rw [hσ, hreadied, others_append]

/-- A move dispatches one process at most; it runs then, and if it is idle then no
other process is ready. -/
def DispatchesLast (m : Move Kernel Label) : Prop :=
  m.after.dispatched = m.before.dispatched ∨
    ∃ next, m.after.dispatched = m.before.dispatched ++ [next] ∧
      m.after.activeProc = some next ∧ (next = idle → others m.after.readyQueue = [])

theorem Placed.dispatchesLast (hinv : σ.Placed) (h : Steps σ l σ') (ha : σ.Allocates l σ')
    (hi : σ.IdlePauses l) : DispatchesLast ⟨σ, l, σ'⟩ := by
  have hplaced := hinv.step h ha hi
  obtain ⟨ps, ds, -, hdispatched, -, hnext⟩ := (step_settles hinv h ha hi).flow
  rcases hnext with rfl | ⟨next, rfl, hactive, hidle⟩
  · exact .inl (by rw [hdispatched, List.append_nil])
  · refine .inr ⟨next, hdispatched, hactive, fun hn => ?_⟩
    subst hn
    exact (hidle rfl).resolve_left (hplaced.not_ready hactive)

variable {b : Boot} {σ₀ : Kernel}

theorem fifo_boot (hb : Booted σ₀) (hr : σ₀.readyQueue = [idle]) : σ₀.Fifo := by
  unfold Fifo
  rw [hb.dispatched, hb.readied, hr]
  rfl

/-- In every run in which allocations succeed and idle only pauses, the processes
other than idle are dispatched in the order in which they became ready, and idle is
dispatched only when no other process is ready. -/
theorem run_fifo {tr : List (Move Kernel Label)} (hok : ∀ a ∈ b.procMallocs, a.ok = true)
    (h₀ : kernelStart b = some σ₀)
    (h : Run step (fun σ l σ' => σ.Allocates l σ' ∧ σ.IdlePauses l) σ₀ tr σ) :
    others σ.dispatched ++ others σ.readyQueue = others σ.readied ∧
      ∀ m ∈ tr, DispatchesLast m := by
  have hboot := kernelStart_booted h₀
  have hready := kernelStart_ready hok h₀
  obtain ⟨-, hfifo⟩ := h.invariant (I := fun σ => σ.Placed ∧ σ.Fifo)
    ⟨placed_boot hboot hready, fifo_boot hboot hready⟩
    fun σ l σ' ⟨hinv, hfifo⟩ hs ⟨ha, hi⟩ =>
      ⟨hinv.step (step_cases hs) ha hi, hfifo.flows (step_settles hinv (step_cases hs) ha hi).flow⟩
  refine ⟨hfifo, fun m hm => ?_⟩
  obtain ⟨tr', hr, hs, ha, hi⟩ := h.reaches_before hm
  exact (placed_of_run hok h₀ hr).dispatchesLast (step_cases hs) ha hi

/-- The theorem on a run in which a child is created, preempts init and blocks. -/
theorem run_fifo_fork : ∃ σ₀ tr σ, kernelStart smallBoot = some σ₀ ∧
    Run step (fun σ l σ' => σ.Allocates l σ' ∧ σ.IdlePauses l) σ₀ tr σ ∧ tr.length = 4 ∧
    others σ.dispatched ++ others σ.readyQueue = others σ.readied := by
  obtain ⟨σ₀, tr, σ, h₀, hr, hlen⟩ := bootExec_run (b := smallBoot)
    (C := fun σ l σ' => σ.Allocates l σ' ∧ σ.IdlePauses l)
    (t := [smallCall .fork 0 0 0, clockTick, resumption, smallCall .delay 3 0 0])
    (by decide +kernel)
  exact ⟨σ₀, tr, σ, h₀, hr, hlen, (run_fifo (by decide) h₀ hr).1⟩

end Kernel

end Yalnix
