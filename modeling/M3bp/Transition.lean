import Mathlib.Logic.Relation
import Mathlib.Logic.Function.Basic

/-!
Runs of a transition system and their invariants. A system is an initial
predicate and a step relation. An invariant is shown once for the first state
and once for each step; the run lemma then gives it for every reachable state.
A simulation carries reachability from a detailed system to a coarser one.
-/
namespace M3bp.Transition

variable {σ τ : Type*}

inductive Reachable (init : σ → Prop) (step : σ → σ → Prop) : σ → Prop
  | start {s : σ} : init s → Reachable init step s
  | next {s t : σ} : Reachable init step s → step s t → Reachable init step t

/-- `P` holds at the start and no step out of a `P`-state leaves it. -/
structure Inductive (init : σ → Prop) (step : σ → σ → Prop) (P : σ → Prop) : Prop where
  start : ∀ s, init s → P s
  next : ∀ s t, P s → step s t → P t

variable {init : σ → Prop} {step : σ → σ → Prop}

theorem Inductive.reachable {P : σ → Prop} (h : Inductive init step P) {s : σ}
    (hs : Reachable init step s) : P s := by
  induction hs with
  | start h0 => exact h.start _ h0
  | next _ hstep ih => exact h.next _ _ ih hstep

/-- A step lemma may use an invariant that is already established. -/
theorem Reachable.invariant_under {P Q : σ → Prop}
    (hQ : ∀ s, Reachable init step s → Q s) (h0 : ∀ s, init s → P s)
    (hn : ∀ s t, Q s → Q t → P s → step s t → P t) {s : σ}
    (hs : Reachable init step s) : P s := by
  induction hs with
  | start h => exact h0 _ h
  | next hs hstep ih => exact hn _ _ (hQ _ hs) (hQ _ (hs.next hstep)) ih hstep

/-- Fewer steps reach fewer states. -/
theorem Reachable.mono {step' : σ → σ → Prop} (hsub : ∀ s t, step s t → step' s t) {s : σ}
    (hs : Reachable init step s) : Reachable init step' s := by
  induction hs with
  | start h => exact .start h
  | next _ hstep ih => exact ih.next (hsub _ _ hstep)

/-- If each step either shows as a step of the coarser system or does not show
at all, what a run reaches is mapped to what the coarser system reaches. -/
theorem Reachable.map {init' : τ → Prop} {step' : τ → τ → Prop} (f : σ → τ)
    (h0 : ∀ s, init s → Reachable init' step' (f s))
    (hn : ∀ s t, Reachable init step s → step s t →
      f t = f s ∨ step' (f s) (f t)) {s : σ}
    (hs : Reachable init step s) : Reachable init' step' (f s) := by
  induction hs with
  | start h => exact h0 _ h
  | next hs hstep ih =>
    rcases hn _ _ hs hstep with heq | hstep'
    · rw [heq]
      exact ih
    · exact ih.next hstep'

end M3bp.Transition
