import Mathlib.Data.Set.Card
import Mathlib.Data.Set.Finite.Basic
import Mathlib.Logic.Relation
import Mathlib.Order.WellFounded
import Mathlib.Data.Fintype.Order

/-!
Acyclic relations: a relation with a strictly increasing rank has no cycle,
and without cycles every nonempty finite set has a member with no predecessor
in the set.
-/
namespace M3bp

open Relation

variable {α : Type*} {R : α → α → Prop}

def Acyclic (R : α → α → Prop) : Prop := ∀ a, ¬ TransGen R a a

namespace Acyclic

theorem of_rank {β : Type*} [Preorder β] (rank : α → β) (h : ∀ a b, R a b → rank a < rank b) :
    Acyclic R := by
  have hlt : ∀ a b, TransGen R a b → rank a < rank b := by
    intro a b hab
    induction hab with
    | single hr => exact h _ _ hr
    | tail _ hr ih => exact ih.trans (h _ _ hr)
  intro a ha
  exact lt_irrefl _ (hlt a a ha)

theorem mono {S : α → α → Prop} (hS : Acyclic S) (h : ∀ a b, R a b → S a b) : Acyclic R :=
  fun a ha => hS a (TransGen.mono h a a ha)

theorem exists_minimal (hR : Acyclic R) {s : Set α} (hs : s.Finite) (hne : s.Nonempty) :
    ∃ m ∈ s, ∀ a ∈ s, ¬ R a m := by
  let before : s → s → Prop := fun a b => TransGen R a.val b.val
  have htrans : IsTrans s before := ⟨fun _ _ _ => TransGen.trans⟩
  have hirrefl : Std.Irrefl before := ⟨fun a => hR a.val⟩
  have hfinite : Finite s := hs
  have hwf : WellFounded before := Finite.wellFounded_of_trans_of_irrefl before
  obtain ⟨a, ha⟩ := hne
  obtain ⟨m, -, hmin⟩ := hwf.has_min Set.univ ⟨⟨a, ha⟩, Set.mem_univ _⟩
  exact ⟨m.val, m.property, fun b hb hbm => hmin ⟨b, hb⟩ (Set.mem_univ _) (.single hbm)⟩

/-- Without cycles the number of predecessors is a rank. -/
theorem exists_rank (hR : Acyclic R) (hfinite : {a | ∃ b, R a b}.Finite) :
    ∃ rank : α → ℕ, ∀ a b, R a b → rank a < rank b := by
  have hbefore : ∀ b, {a | TransGen R a b}.Finite := by
    intro b
    refine hfinite.subset fun a hab => ?_
    obtain ⟨c, hac, -⟩ := TransGen.head'_iff.mp hab
    exact ⟨c, hac⟩
  refine ⟨fun b => {a | TransGen R a b}.ncard, fun a b hab => ?_⟩
  refine Set.ncard_lt_ncard ⟨fun c hca => hca.tail hab, fun hsub => ?_⟩ (hbefore b)
  exact hR a (hsub (TransGen.single hab))

end Acyclic

end M3bp
