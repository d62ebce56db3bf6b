import Mathlib.Algebra.BigOperators.Group.Finset.Basic
import Mathlib.Algebra.BigOperators.Group.Finset.Piecewise
import Mathlib.Algebra.Order.BigOperators.Group.Finset

/-!
Sequences of places that are filled round by round. In a round each place takes as many
entries as it has units, and the next round starts when all units are taken. The blocks
of such a sequence are its rounds, whatever the order of the places in each of them.
-/
namespace M3bp.BalancedRounds

open Finset

variable {units : ℕ → ℕ} {places : ℕ}

/-- A sequence together with its round in progress. -/
inductive Rounds (units : ℕ → ℕ) (places : ℕ) : List ℕ → List ℕ → Prop
  | start : Rounds units places [] []
  | place {all round : List ℕ} {n : ℕ} : Rounds units places all round → n < places →
      round.count n < units n → Rounds units places (all ++ [n]) (round ++ [n])
  | renew {all round : List ℕ} : Rounds units places all round →
      (∀ n < places, round.count n = units n) → Rounds units places all []

/-- The length of a round. -/
def total (units : ℕ → ℕ) (places : ℕ) : ℕ := ∑ n ∈ range places, units n

theorem length_eq_sum_count {l : List ℕ} (h : ∀ n ∈ l, n < places) :
    l.length = ∑ n ∈ range places, l.count n := by
  induction l with
  | nil => simp
  | cons a l ih =>
    obtain ⟨ha, hl⟩ := List.forall_mem_cons.mp h
    simp only [List.length_cons, List.count_cons, sum_add_distrib, ih hl, beq_iff_eq,
      sum_ite_eq, mem_range, if_pos ha]

variable {all round : List ℕ}

theorem Rounds.mem (h : Rounds units places all round) :
    ∀ n ∈ all, n < places ∧ 0 < units n := by
  induction h with
  | start => exact fun n hn => absurd hn List.not_mem_nil
  | @place all round n _ hn hcount ih =>
    intro k hk
    rcases List.mem_append.mp hk with hk | hk
    · exact ih k hk
    · rw [List.mem_singleton.mp hk]
      exact ⟨hn, Nat.zero_lt_of_lt hcount⟩
  | renew _ _ ih => exact ih

theorem Rounds.suffix (h : Rounds units places all round) : round <:+ all := by
  induction h with
  | start => exact List.suffix_refl []
  | @place all round n _ _ _ ih =>
    obtain ⟨l, rfl⟩ := ih
    exact ⟨l, by simp⟩
  | @renew all round _ _ _ => exact List.nil_suffix

theorem Rounds.mem_round (h : Rounds units places all round) : ∀ n ∈ round, n < places :=
  fun n hn => (h.mem n (h.suffix.subset hn)).1

theorem Rounds.count_le (h : Rounds units places all round) (n : ℕ) :
    round.count n ≤ units n := by
  induction h with
  | start => simp
  | @place all round k _ hk hcount ih =>
    by_cases heq : k = n
    · subst k
      simp only [List.count_append, List.count_singleton_self]
      exact hcount
    · simp only [List.count_append, List.count_singleton, beq_iff_eq, if_neg heq]
      exact ih
  | renew _ _ _ => simp

theorem Rounds.length_le (h : Rounds units places all round) :
    round.length ≤ total units places := by
  rw [length_eq_sum_count h.mem_round]
  exact sum_le_sum fun n _ => h.count_le n

/-- A round as long as all units together has taken each of them. -/
theorem Rounds.full (h : Rounds units places all round)
    (hlength : total units places ≤ round.length) : ∀ n < places, round.count n = units n := by
  have hsum : ∑ n ∈ range places, round.count n = ∑ n ∈ range places, units n := by
    rw [← length_eq_sum_count h.mem_round]
    exact Nat.le_antisymm h.length_le hlength
  intro n hn
  exact (sum_eq_sum_iff_of_le fun n _ => h.count_le n).mp hsum n (mem_range.mpr hn)

/-- A round that is not full leaves a unit free somewhere. -/
theorem Rounds.exists_free (h : Rounds units places all round)
    (hlength : round.length < total units places) : ∃ n < places, round.count n < units n := by
  rw [length_eq_sum_count h.mem_round] at hlength
  obtain ⟨n, hn, hlt⟩ := exists_lt_of_sum_lt hlength
  exact ⟨n, mem_range.mp hn, hlt⟩

/-- The rounds that are finished are the first blocks of the sequence. -/
theorem Rounds.blocks (h : Rounds units places all round) :
    ∃ q, all.length = q * total units places + round.length ∧
      all.drop (q * total units places) = round ∧
      ∀ p < q, ∀ n < places,
        ((all.drop (p * total units places)).take (total units places)).count n = units n := by
  induction h with
  | start => exact ⟨0, by simp, by simp, fun p hp => absurd hp (Nat.not_lt_zero p)⟩
  | @place all round n h _ _ ih =>
    obtain ⟨q, hlength, hdrop, hblocks⟩ := ih
    have hle : q * total units places ≤ all.length := hlength ▸ Nat.le_add_right _ _
    refine ⟨q, ?_, ?_, fun p hp => ?_⟩
    · simp only [List.length_append, List.length_singleton]
      omega
    · rw [List.drop_append_of_le_length hle, hdrop]
    · have hend : p * total units places + total units places ≤ all.length :=
        calc p * total units places + total units places
          _ = (p + 1) * total units places := (Nat.succ_mul p _).symm
          _ ≤ q * total units places := Nat.mul_le_mul_right _ hp
          _ ≤ all.length := hle
      rw [List.drop_append_of_le_length (by omega),
        List.take_append_of_le_length (by rw [List.length_drop]; omega)]
      exact hblocks p hp
  | @renew all round h hfull ih =>
    obtain ⟨q, hlength, hdrop, hblocks⟩ := ih
    have hround : round.length = total units places := by
      rw [length_eq_sum_count h.mem_round]
      exact sum_congr rfl fun n hn => hfull n (mem_range.mp hn)
    have hall : all.length = (q + 1) * total units places := by
      rw [hlength, hround, Nat.succ_mul]
    refine ⟨q + 1, ?_, ?_, fun p hp => ?_⟩
    · simpa using hall
    · exact List.drop_of_length_le (Nat.le_of_eq hall)
    · rcases Nat.lt_succ_iff_lt_or_eq.mp hp with hp | rfl
      · exact hblocks p hp
      · rw [hdrop, List.take_of_length_le (Nat.le_of_eq hround)]
        exact hfull

/-- No place takes more than its units within a block, complete or not. -/
theorem Rounds.count_block_le (h : Rounds units places all round) (p : ℕ) {k : ℕ}
    (hk : k ≤ total units places) {n : ℕ} (hn : n < places) :
    ((all.drop (p * total units places)).take k).count n ≤ units n := by
  obtain ⟨q, hlength, hdrop, hblocks⟩ := h.blocks
  rcases Nat.lt_trichotomy p q with hp | rfl | hp
  · rw [← hblocks p hp n hn]
    exact (List.take_sublist_take_left hk).count_le n
  · rw [hdrop]
    exact Nat.le_trans ((List.take_sublist k round).count_le n) (h.count_le n)
  · have hround := h.length_le
    have hpast : all.length ≤ p * total units places :=
      calc all.length
        _ ≤ (q + 1) * total units places := by rw [hlength, Nat.succ_mul]; omega
        _ ≤ p * total units places := Nat.mul_le_mul_right _ hp
    rw [List.drop_of_length_le hpast]
    simp

/-- A complete block takes each place exactly as often as it has units. -/
theorem Rounds.count_block (h : Rounds units places all round) {p : ℕ}
    (hp : (p + 1) * total units places ≤ all.length) {n : ℕ} (hn : n < places) :
    ((all.drop (p * total units places)).take (total units places)).count n = units n := by
  obtain ⟨q, hlength, hdrop, hblocks⟩ := h.blocks
  rcases Nat.lt_or_ge p q with hlt | hge
  · exact hblocks p hlt n hn
  · have hround : total units places ≤ round.length := by
      have hmul : (q + 1) * total units places ≤ (p + 1) * total units places :=
        Nat.mul_le_mul_right _ (Nat.succ_le_succ hge)
      rw [Nat.succ_mul] at hmul
      omega
    have hq : p * total units places = q * total units places := by
      rcases Nat.eq_or_lt_of_le hge with rfl | hlt
      · rfl
      · have hmul : (q + 1) * total units places ≤ p * total units places :=
          Nat.mul_le_mul_right _ hlt
        have hle := h.length_le
        rw [Nat.succ_mul] at hmul hp
        omega
    rw [hq, hdrop, List.take_of_length_le h.length_le]
    exact h.full hround n hn

end M3bp.BalancedRounds
