import M3bp.Transition
import Mathlib.Data.List.Count

/-!
Monitors of logs. A monitor says in which order events may happen; a log is a list of
events, newest first. A system keeps to a monitor when each of its states stands for a
state of the monitor that has accepted everything logged so far. What holds of all
accepted logs then holds of all runs.
-/
namespace M3bp

/-- `allowed p e p'`: in `p` the event `e` may happen, and then `p'` is reached. -/
structure Monitor (π ε : Type*) where
  start : π
  allowed : π → ε → π → Prop

namespace Monitor

variable {π ε : Type*} {m : Monitor π ε}

/-- The events of a log were allowed one after the other, up to the state `p`. -/
inductive Accepts (m : Monitor π ε) : List ε → π → Prop
  | start : Accepts m [] m.start
  | next {log : List ε} {p p' : π} {e : ε} : Accepts m log p → m.allowed p e p' →
      Accepts m (e :: log) p'

variable {log new : List ε} {e : ε} {p p' : π}

/-- What was accepted before the last events. -/
theorem Accepts.of_append (h : m.Accepts (new ++ log) p') : ∃ p, m.Accepts log p := by
  induction new generalizing p' with
  | nil => exact ⟨p', h⟩
  | cons e new ih =>
    cases h with
    | next hold _ => exact ih hold

/-- An event that was accepted was allowed when it happened. -/
theorem Accepts.allowed_of_append (h : m.Accepts (new ++ e :: log) p') :
    ∃ p q, m.Accepts log p ∧ m.allowed p e q := by
  obtain ⟨q, hq⟩ := h.of_append
  cases hq with
  | @next _ p _ _ hold hallowed => exact ⟨p, q, hold, hallowed⟩

/-- What every allowed event keeps holds after every accepted log. -/
theorem Accepts.invariant {P : List ε → π → Prop} (hstart : P [] m.start)
    (hnext : ∀ log p e p', m.allowed p e p' → P log p → P (e :: log) p')
    (h : m.Accepts log p) : P log p := by
  induction h with
  | start => exact hstart
  | next hold hallowed ih => exact hnext _ _ _ _ hallowed ih

/-- A balance that each event changes by its credit and its debit. -/
theorem Accepts.balance (held : π → ℕ) (credit debit : ε → Bool)
    (hnext : ∀ p e p', m.allowed p e p' →
      held p' + (debit e).toNat = held p + (credit e).toNat)
    (h : m.Accepts log p) :
    held p + log.countP debit = held m.start + log.countP credit := by
  refine h.invariant (P := fun log p =>
    held p + log.countP debit = held m.start + log.countP credit) rfl ?_
  intro log p e p' hallowed hold
  have hlast := hnext p e p' hallowed
  rw [List.countP_cons, List.countP_cons]
  cases hdebit : debit e <;> cases hcredit : credit e <;> simp [hdebit, hcredit] at hlast ⊢ <;>
    omega

/-- A system whose states are related to those of the monitor: a step logs nothing and
keeps the relation, or it logs one event that the monitor allows. -/
theorem accepts_of_reachable {σ : Type*} {init : σ → Prop} {step : σ → σ → Prop}
    (logOf : σ → List ε) (R : σ → π → Prop) (hstart : ∀ s, init s → logOf s = [] ∧ R s m.start)
    (hstep : ∀ s s' p, Transition.Reachable init step s → R s p → step s s' →
      logOf s' = logOf s ∧ R s' p ∨
        ∃ e p', logOf s' = e :: logOf s ∧ m.allowed p e p' ∧ R s' p')
    {s : σ} (hs : Transition.Reachable init step s) : ∃ p, m.Accepts (logOf s) p ∧ R s p := by
  induction hs with
  | start h =>
    obtain ⟨hlog, hR⟩ := hstart _ h
    exact ⟨m.start, by rw [hlog]; exact .start, hR⟩
  | next hs hst ih =>
    obtain ⟨p, hp, hR⟩ := ih
    rcases hstep _ _ p hs hR hst with ⟨hlog, hR'⟩ | ⟨e, p', hlog, hallowed, hR'⟩
    · exact ⟨p, by rw [hlog]; exact hp, hR'⟩
    · exact ⟨p', by rw [hlog]; exact hp.next hallowed, hR'⟩

end Monitor

end M3bp
