import Mathlib.Data.List.Basic
import Mathlib.Order.Defs.PartialOrder

/-!
# Runs of a labelled transition system

A system is a partial step function `next : S → L → Option S`: in state `s` the
label `l` says what the environment does, and `none` means that the system has
no successor there. `Run next C s₀ tr s` is a finite run from `s₀` to `s` whose
moves `tr` are listed oldest first and all meet the condition `C`, which sees a
move's two states and its label.

The two induction rules are `Run.invariant`, for a property of the states a run
reaches, and `Run.history`, for a property that also reads the moves made so
far. `Since P Q` is the operator of past-time logic on the moves of a run; `since_snoc`
unfolds it by one move. `exec` computes the end of a run from its labels.
-/

namespace Transition

variable {S L : Type*}

/-- One move of a run. -/
structure Move (S L : Type*) where
  before : S
  label : L
  after : S

/-- A run from `s₀` to `s` through the moves `tr`, oldest first, all of which
meet `C`. -/
inductive Run (next : S → L → Option S) (C : S → L → S → Prop) (s₀ : S) :
    List (Move S L) → S → Prop
  | start : Run next C s₀ [] s₀
  | snoc {tr : List (Move S L)} {s s' : S} {l : L} :
      Run next C s₀ tr s → next s l = some s' → C s l s' →
        Run next C s₀ (tr ++ [⟨s, l, s'⟩]) s'

namespace Run

variable {next : S → L → Option S} {C D : S → L → S → Prop} {s₀ s : S}
  {tr : List (Move S L)}

/-- A weaker condition on the moves admits every run of a stronger one. -/
theorem mono (h : Run next C s₀ tr s)
    (hCD : ∀ s l s', next s l = some s' → C s l s' → D s l s') :
    Run next D s₀ tr s := by
  induction h with
  | start => exact .start
  | snoc _ hn hc ih => exact .snoc ih hn (hCD _ _ _ hn hc)

/-- A run whose moves also meet another condition. -/
theorem restrict (h : Run next C s₀ tr s)
    (hD : ∀ m ∈ tr, D m.before m.label m.after) : Run next D s₀ tr s := by
  induction h with
  | start => exact .start
  | snoc _ hn _ ih =>
      exact .snoc (ih fun m hm => hD m (by simp [hm])) hn (hD ⟨_, _, _⟩ (by simp))

/-- The invariant rule: what holds at the start and is kept by every move holds
at the end. -/
theorem invariant {I : S → Prop} (h : Run next C s₀ tr s) (h₀ : I s₀)
    (hstep : ∀ s l s', I s → next s l = some s' → C s l s' → I s') : I s := by
  induction h with
  | start => exact h₀
  | snoc _ hn hc ih => exact hstep _ _ _ ih hn hc

/-- The invariant rule for a property of the moves made so far and the state
they lead to. -/
theorem history {I : List (Move S L) → S → Prop} (h : Run next C s₀ tr s)
    (h₀ : I [] s₀)
    (hstep : ∀ tr s l s', I tr s → next s l = some s' → C s l s' →
      I (tr ++ [⟨s, l, s'⟩]) s') : I tr s := by
  induction h with
  | start => exact h₀
  | snoc _ hn hc ih => exact hstep _ _ _ _ ih hn hc

/-- Two runs in a row are a run. -/
theorem trans {tr' : List (Move S L)} {s' : S} (h : Run next C s₀ tr s)
    (h' : Run next C s tr' s') : Run next C s₀ (tr ++ tr') s' := by
  induction h' with
  | start => simpa using h
  | snoc _ hn hc ih => simpa [List.append_assoc] using Run.snoc ih hn hc

/-- The moves before one of a run are a run to the state where that one starts. -/
theorem upTo {tr₁ tr₂ : List (Move S L)} {m : Move S L} (h : Run next C s₀ tr s)
    (htr : tr = tr₁ ++ m :: tr₂) : Run next C s₀ tr₁ m.before ∧
      next m.before m.label = some m.after ∧ C m.before m.label m.after := by
  induction h generalizing tr₂ with
  | start => simp at htr
  | @snoc tr s s' l hr hn hc ih =>
      rcases List.eq_nil_or_concat tr₂ with rfl | ⟨tr₃, m₃, rfl⟩
      · obtain ⟨rfl, hm⟩ := List.append_inj' htr rfl
        obtain rfl : (⟨s, l, s'⟩ : Move S L) = m := by simpa using hm
        exact ⟨hr, hn, hc⟩
      · rw [List.concat_eq_append, ← List.cons_append, ← List.append_assoc] at htr
        exact ih (List.append_inj' htr rfl).1

/-- The last move of a run. -/
theorem last {m : Move S L} (h : Run next C s₀ (tr ++ [m]) s) : Run next C s₀ tr m.before ∧
    next m.before m.label = some m.after ∧ C m.before m.label m.after ∧ m.after = s := by
  generalize htr : tr ++ [m] = tr' at h
  cases h with
  | start => simp at htr
  | snoc hr hn hc =>
      obtain ⟨rfl, hm⟩ := List.append_inj' htr rfl
      obtain rfl := List.singleton_inj.1 hm
      exact ⟨hr, hn, hc, rfl⟩

/-- Every move of a run starts in a state that the run reaches. -/
theorem reaches_before (h : Run next C s₀ tr s) {m : Move S L} (hm : m ∈ tr) :
    ∃ tr', Run next C s₀ tr' m.before ∧ next m.before m.label = some m.after ∧
      C m.before m.label m.after := by
  induction h with
  | start => simp at hm
  | @snoc tr s s' l hr hn hc ih =>
      rcases List.mem_append.1 hm with hm | hm
      · exact ih hm
      · obtain rfl : m = ⟨s, l, s'⟩ := by simpa using hm
        exact ⟨tr, hr, hn, hc⟩

/-- A measure that no move raises is at the end what it was at the start if and only if
every move keeps it. -/
theorem keeps_iff {α : Type*} [PartialOrder α] {g : S → α} (h : Run next C s₀ tr s)
    (hle : ∀ m ∈ tr, g m.after ≤ g m.before) :
    g s ≤ g s₀ ∧ (g s = g s₀ ↔ ∀ m ∈ tr, g m.after = g m.before) := by
  induction h with
  | start => simp
  | @snoc tr s s' l _ _ _ ih =>
      obtain ⟨hbefore, hiff⟩ := ih fun m hm => hle m (List.mem_append_left _ hm)
      have hlast : g s' ≤ g s := hle ⟨s, l, s'⟩ (by simp)
      refine ⟨le_trans hlast hbefore, ?_⟩
      simp only [List.forall_mem_append, List.forall_mem_singleton]
      rw [← hiff]
      constructor
      · intro he
        -- what the last move takes away is not given back
        have hsame : g s = g s₀ := le_antisymm hbefore (he ▸ hlast)
        exact ⟨hsame, he.trans hsame.symm⟩
      · rintro ⟨hsame, he⟩
        exact he.trans hsame

end Run

section Since

variable {P Q : Move S L → Prop} {tr : List (Move S L)} {m : Move S L}

/-- Some move has met `P`, and all moves after it have met `Q`. -/
def Since (P Q : Move S L → Prop) (tr : List (Move S L)) : Prop :=
  ∃ tr₁ m tr₂, tr = tr₁ ++ m :: tr₂ ∧ P m ∧ ∀ m' ∈ tr₂, Q m'

@[simp] theorem not_since_nil : ¬Since P Q [] := by
  rintro ⟨tr₁, m, tr₂, h, -⟩
  simp at h

theorem since_snoc : Since P Q (tr ++ [m]) ↔ P m ∨ Since P Q tr ∧ Q m := by
  constructor
  · rintro ⟨tr₁, m₁, tr₂, h, hP, hQ⟩
    rcases List.eq_nil_or_concat tr₂ with rfl | ⟨tr₃, m₃, rfl⟩
    · obtain ⟨-, hm⟩ := List.append_inj' h rfl
      obtain rfl : m = m₁ := by simpa using hm
      exact .inl hP
    · rw [List.concat_eq_append, ← List.cons_append, ← List.append_assoc] at h
      obtain ⟨rfl, hm⟩ := List.append_inj' h rfl
      obtain rfl : m = m₃ := by simpa using hm
      exact .inr ⟨⟨tr₁, m₁, tr₃, rfl, hP, fun m' hm' => hQ m' (by simp [hm'])⟩,
        hQ m (by simp)⟩
  · rintro (hP | ⟨⟨tr₁, m₁, tr₂, rfl, hP, hQ⟩, hm⟩)
    · exact ⟨tr, m, [], rfl, hP, by simp⟩
    · refine ⟨tr₁, m₁, tr₂ ++ [m], by simp, hP, fun m' hm' => ?_⟩
      rcases List.mem_append.1 hm' with h | h
      · exact hQ m' h
      · rw [List.mem_singleton.1 h]
        exact hm

end Since

section Exec

variable (next : S → L → Option S) (C : S → L → S → Prop) [∀ s l s', Decidable (C s l s')]

/-- The state that the labels `ls` lead to, if all moves meet `C`. -/
def exec : S → List L → Option S
  | s, [] => some s
  | s, l :: ls => (next s l).bind fun s' => if C s l s' then exec s' ls else none

variable {next C}

/-- What `exec` computes is the end of a run. -/
theorem exec_run {s' : S} : ∀ {ls : List L} {s : S}, exec next C s ls = some s' →
    ∃ tr, Run next C s tr s' ∧ tr.map Move.label = ls
  | [], s, h => by
      obtain rfl : s = s' := by simpa [exec] using h
      exact ⟨[], .start, rfl⟩
  | l :: ls, s, h => by
      obtain ⟨t, ht, h⟩ := Option.bind_eq_some_iff.1 h
      split at h
      · rename_i hC
        obtain ⟨tr, hr, hls⟩ := exec_run h
        have h₀ : Run next C s [] s := .start
        have h₁ : Run next C s [⟨s, l, t⟩] t := .snoc h₀ ht hC
        exact ⟨_, h₁.trans hr, congrArg (l :: ·) hls⟩
      · exact absurd h (by simp)

variable (next C)

/-- The moves that the labels `ls` make from a state, if all moves meet `C`. -/
def moves : S → List L → Option (List (Move S L))
  | _, [] => some []
  | s, l :: ls => (next s l).bind fun s' =>
      if C s l s' then (moves s' ls).map fun tr => ⟨s, l, s'⟩ :: tr else none

variable {next C}

/-- What `moves` computes are the moves of a run. -/
theorem moves_run {tr : List (Move S L)} : ∀ {ls : List L} {s : S}, moves next C s ls = some tr →
    ∃ s', Run next C s tr s' := by
  induction tr with
  | nil => exact fun _ => ⟨_, .start⟩
  | cons m tr ih =>
      intro ls s h
      cases ls with
      | nil => simp [moves] at h
      | cons l ls =>
          obtain ⟨t, ht, h⟩ := Option.bind_eq_some_iff.1 h
          split at h
          · rename_i hC
            obtain ⟨tr', htr, he⟩ := Option.map_eq_some_iff.1 h
            obtain ⟨rfl, rfl⟩ := List.cons_eq_cons.1 he
            obtain ⟨s', hr⟩ := ih htr
            have h₀ : Run next C s [] s := .start
            have h₁ : Run next C s [⟨s, l, t⟩] t := .snoc h₀ ht hC
            exact ⟨s', h₁.trans hr⟩
          · exact absurd h (by simp)

end Exec

end Transition
