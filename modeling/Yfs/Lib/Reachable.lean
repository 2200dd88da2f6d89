import Mathlib.Logic.Function.Basic

/-!
# Reachable states and invariants

The two halves of every run argument of this development: what holds of the
start states and is preserved by one step holds of every reachable state
(`Reachable.invariant`), and a step relation that only ever moves one component
of an indexed family can be checked component by component
(`Reachable.component`).
-/

namespace Yfs

universe u v

/-- The states a system can get to from its start states, one step at a time. -/
inductive Reachable {σ : Type u} (init : σ → Prop) (step : σ → σ → Prop) : σ → Prop
  | start {s : σ} : init s → Reachable init step s
  | next {s s' : σ} : Reachable init step s → step s s' → Reachable init step s'

namespace Reachable

variable {σ : Type u} {init : σ → Prop} {step : σ → σ → Prop}

/-- **The invariant rule**: true at the start and preserved by one step, hence
true of every reachable state. -/
theorem invariant {I : σ → Prop} (h₀ : ∀ s, init s → I s)
    (hs : ∀ s s', I s → step s s' → I s') {s : σ} (h : Reachable init step s) : I s := by
  induction h with
  | start h => exact h₀ _ h
  | next _ hstep ih => exact hs _ _ ih hstep

/-- A system that is a family of components, each step of which replaces one
component by a successor of it, has only reachable components. -/
theorem component {ι : Type v} [DecidableEq ι] {τ : Type u} {I : τ → Prop}
    {S : τ → τ → Prop} {step : (ι → τ) → (ι → τ) → Prop}
    (hstep : ∀ s s', step s s' → ∃ i q, S (s i) q ∧ s' = Function.update s i q)
    {s : ι → τ} (h : Reachable (fun s => ∀ i, I (s i)) step s) (i : ι) :
    Reachable I S (s i) := by
  induction h generalizing i with
  | start h => exact .start (h i)
  | next _ hs ih =>
    obtain ⟨j, q, hq, rfl⟩ := hstep _ _ hs
    by_cases hij : i = j
    · subst hij
      rw [Function.update_self]
      exact (ih i).next hq
    · rw [Function.update_of_ne hij]
      exact ih i

end Reachable

end Yfs
