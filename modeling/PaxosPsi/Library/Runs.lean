import Mathlib.Logic.Function.Basic

/-! Runs of a step relation with their length: invariants, a measure every step raises by
one, and runs of every length where no state is stuck. -/
namespace PaxosPsi.Runs

variable {σ : Type*} {step : σ → σ → Prop}

inductive Run (step : σ → σ → Prop) : Nat → σ → σ → Prop where
  | start (s : σ) : Run step 0 s s
  | next {k : Nat} {s t u : σ} (ran : Run step k s t) (stepped : step t u) : Run step (k + 1) s u

section Invariants
variable {holds : σ → Prop} (kept : ∀ s t, holds s → step s t → holds t)
include kept

theorem Run.invariant {k : Nat} {s t : σ} (start : holds s) (ran : Run step k s t) : holds t := by
  induction ran with
  | start => exact start
  | next _ stepped ih => exact kept _ _ (ih start) stepped

theorem Run.measured {measure : σ → Nat} (raised : ∀ s t, holds s → step s t → measure t = measure s + 1)
    {k : Nat} {s t : σ} (start : holds s) (ran : Run step k s t) : measure t = measure s + k := by
  induction ran with
  | start => rfl
  | next ran stepped ih =>
    rw [raised _ _ (ran.invariant kept start) stepped, ih start]
    rfl

theorem Run.ofProgress (progress : ∀ s, holds s → ∃ t, step s t) {s : σ} (start : holds s) (k : Nat) :
    ∃ t, Run step k s t := by
  induction k with
  | zero => exact ⟨s, .start s⟩
  | succ k ih =>
    obtain ⟨t, ran⟩ := ih
    obtain ⟨u, stepped⟩ := progress t (ran.invariant kept start)
    exact ⟨u, ran.next stepped⟩

end Invariants
end PaxosPsi.Runs
