import Mathlib.Data.List.Basic
import Mathlib.Algebra.BigOperators.Group.Finset.Basic
import Mathlib.Algebra.BigOperators.Group.Finset.Piecewise
import Mathlib.Algebra.Order.BigOperators.Group.Finset

/-!
One pass of a distribution sort. The occurrences of each digit are counted, the
counts are turned into the positions at which the buckets start, and each entry
is written to the next free position of its bucket. The pass is stable: every
bucket holds the entries with its digit in their old order.
-/
namespace M3bp.BucketScatter

open Finset

variable {α : Type}

def increment (bins : ℕ → ℕ) (d : ℕ) : ℕ → ℕ := Function.update bins d (bins d + 1)

/-- The first loop: the number of occurrences of each digit. -/
def countDigits (digit : α → ℕ) (xs : List α) : ℕ → ℕ :=
  xs.foldl (fun bins x => increment bins (digit x)) fun _ => 0

/-- The second loop: `s` is the sum of the counts before digit `i`. -/
def exclusiveSums (bins : ℕ → ℕ) : ℕ → (ℕ → ℕ) × ℕ
  | 0 => (bins, 0)
  | i + 1 =>
    let (starts, s) := exclusiveSums bins i
    (Function.update starts i s, s + starts i)

/-- The third loop: each entry goes to the position its bin holds. -/
def scatter (digit : α → ℕ) : List α → (ℕ → ℕ) → List α → Option ((ℕ → ℕ) × List α)
  | [], bins, work => some (bins, work)
  | x :: xs, bins, work =>
    let p := bins (digit x)
    if p < work.length then
      scatter digit xs (increment bins (digit x)) (work.set p x)
    else
      none

/-- The buckets one after the other. -/
def buckets (digit : α → ℕ) (m : ℕ) (xs : List α) : List (List α) :=
  (List.range m).map fun d => xs.filter fun x => digit x = d

def countOf (digit : α → ℕ) (xs : List α) (d : ℕ) : ℕ := xs.countP fun x => digit x = d

def startOf (digit : α → ℕ) (xs : List α) (d : ℕ) : ℕ := ∑ i ∈ range d, countOf digit xs i

variable {digit : α → ℕ}

theorem countDigits_eq (xs : List α) : countDigits digit xs = countOf digit xs := by
  have hfold : ∀ (xs : List α) (bins : ℕ → ℕ) (d : ℕ),
      xs.foldl (fun bins x => increment bins (digit x)) bins d = bins d + countOf digit xs d := by
    intro xs
    induction xs with
    | nil => simp [countOf]
    | cons x xs ih =>
      intro bins d
      rw [List.foldl_cons, ih]
      by_cases hd : d = digit x
      · subst hd
        simp [increment, countOf, Nat.add_assoc, Nat.add_comm 1]
      · simp [increment, countOf, hd, Ne.symm hd]
  funext d
  simp [countDigits, hfold]

theorem exclusiveSums_eq (bins : ℕ → ℕ) (m : ℕ) :
    exclusiveSums bins m =
      (fun i => if i < m then ∑ j ∈ range i, bins j else bins i, ∑ j ∈ range m, bins j) := by
  induction m with
  | zero => simp [exclusiveSums]
  | succ m ih =>
    simp only [exclusiveSums, ih, lt_irrefl, if_false, sum_range_succ, Prod.mk.injEq, and_true]
    funext i
    by_cases hi : i = m
    · subst hi
      simp
    · have hlt : i < m + 1 ↔ i < m := by omega
      simp [hi, hlt]

theorem startOf_succ (xs : List α) (d : ℕ) :
    startOf digit xs (d + 1) = startOf digit xs d + countOf digit xs d :=
  sum_range_succ _ _

theorem startOf_mono (xs : List α) {d d' : ℕ} (h : d ≤ d') :
    startOf digit xs d ≤ startOf digit xs d' :=
  sum_le_sum_of_subset (range_subset_range.mpr h)

theorem startOf_eq_length {xs : List α} {m : ℕ} (h : ∀ x ∈ xs, digit x < m) :
    startOf digit xs m = xs.length := by
  induction xs with
  | nil => simp [startOf, countOf]
  | cons x xs ih =>
    have hx : digit x ∈ range m := mem_range.mpr (h x List.mem_cons_self)
    have hsum : startOf digit (x :: xs) m =
        startOf digit xs m + ∑ d ∈ range m, if digit x = d then 1 else 0 := by
      rw [startOf, startOf, ← sum_add_distrib]
      refine sum_congr rfl fun d _ => ?_
      simp [countOf, List.countP_cons]
    rw [hsum, ih fun y hy => h y (List.mem_cons_of_mem x hy), sum_ite_eq, if_pos hx,
      List.length_cons]

/-- A write beside a slice of the array does not show in it. -/
theorem take_drop_set {work : List α} {a k p : ℕ} (x : α) (h : p < a ∨ a + k ≤ p) :
    ((work.set p x).drop a).take k = (work.drop a).take k := by
  refine List.ext_getElem? fun i => ?_
  grind

/-- A write right behind a slice extends it. -/
theorem take_drop_set_next {work : List α} {a k : ℕ} (x : α) (h : a + k < work.length) :
    ((work.set (a + k) x).drop a).take (k + 1) = (work.drop a).take k ++ [x] := by
  refine List.ext_getElem? fun i => ?_
  grind

/-- What the third loop has done when it is past `done`. -/
structure Scattered (digit : α → ℕ) (m : ℕ) (all done : List α) (bins : ℕ → ℕ)
    (work : List α) : Prop where
  digits : ∀ x ∈ all, digit x < m
  length : work.length = all.length
  bins : ∀ d < m, bins d = startOf digit all d + countOf digit done d
  filled : ∀ d < m, (work.drop (startOf digit all d)).take (countOf digit done d) =
    done.filter fun x => digit x = d

theorem Scattered.next {m : ℕ} {done rest : List α} {x : α} {bins : ℕ → ℕ} {work : List α}
    (h : Scattered digit m (done ++ x :: rest) done bins work) :
    bins (digit x) < work.length ∧
    Scattered digit m (done ++ x :: rest) (done ++ [x]) (increment bins (digit x))
      (work.set (bins (digit x)) x) := by
  set all := done ++ x :: rest
  have hcount : ∀ d, countOf digit (done ++ [x]) d =
      countOf digit done d + if digit x = d then 1 else 0 := by
    intro d
    simp [countOf, List.countP_cons]
  have hless : ∀ d, countOf digit (done ++ [x]) d ≤ countOf digit all d := by
    intro d
    simp only [countOf, all, List.countP_append, List.countP_cons, List.countP_nil]
    omega
  have hroom : startOf digit all (digit x) + countOf digit done (digit x) <
      startOf digit all (digit x + 1) := by
    have hlt := hless (digit x)
    rw [hcount, if_pos rfl] at hlt
    rw [startOf_succ]
    omega
  have hx : digit x < m := h.digits x (List.mem_append_right _ List.mem_cons_self)
  have hend : startOf digit all (digit x + 1) ≤ work.length := by
    rw [h.length, ← startOf_eq_length h.digits]
    exact startOf_mono all hx
  have hbin := h.bins (digit x) hx
  refine ⟨by omega, h.digits, by simp [h.length], ?_, ?_⟩
  · intro d hd
    rw [hcount]
    by_cases hxd : digit x = d
    · subst hxd
      simp [increment, hbin, Nat.add_assoc]
    · simp [increment, hxd, Ne.symm hxd, h.bins d hd]
  · intro d hd
    rw [hcount, hbin, List.filter_append]
    by_cases hxd : digit x = d
    · subst hxd
      rw [if_pos rfl, List.filter_cons_of_pos (by simp), List.filter_nil,
        take_drop_set_next x (by omega), h.filled _ hd]
    · simp only [hxd, if_false, decide_false, Bool.false_eq_true, not_false_eq_true,
        List.filter_cons_of_neg, List.filter_nil, List.append_nil, Nat.add_zero]
      rw [take_drop_set, h.filled d hd]
      rcases Nat.lt_or_gt_of_ne hxd with hlt | hlt
      · left
        have hmono := @startOf_mono _ digit all _ _ (show digit x + 1 ≤ d from hlt)
        omega
      · right
        have hmono := @startOf_mono _ digit all _ _ (show d + 1 ≤ digit x from hlt)
        have hle := hless d
        rw [hcount, if_neg hxd] at hle
        rw [startOf_succ] at hmono
        omega

theorem scatter_scattered {m : ℕ} {done rest : List α} {bins : ℕ → ℕ} {work : List α}
    (h : Scattered digit m (done ++ rest) done bins work) :
    ∃ ends work', scatter digit rest bins work = some (ends, work') ∧
      Scattered digit m (done ++ rest) (done ++ rest) ends work' := by
  induction rest generalizing done bins work with
  | nil => exact ⟨bins, work, rfl, by simpa using h⟩
  | cons x rest ih =>
    obtain ⟨hroom, hnext⟩ := h.next
    have happend : done ++ x :: rest = done ++ [x] ++ rest := by simp
    rw [happend] at hnext ⊢
    obtain ⟨ends, work', hscatter, hdone⟩ := ih hnext
    exact ⟨ends, work', by simpa [scatter, hroom] using hscatter, hdone⟩

/-- Slices that are the buckets, side by side, make up the array. -/
theorem Scattered.eq_flatten {m : ℕ} {all : List α} {bins : ℕ → ℕ} {work : List α}
    (h : Scattered digit m all all bins work) :
    work = (buckets digit m all).flatten := by
  have hprefix : ∀ k ≤ m, work.take (startOf digit all k) = (buckets digit k all).flatten := by
    intro k
    induction k with
    | zero => simp [startOf, buckets]
    | succ k ih =>
      intro hk
      have hslice := h.filled k (by omega)
      rw [startOf_succ, List.take_add, ih (by omega), hslice]
      simp [buckets, List.range_succ]
  have hall := hprefix m le_rfl
  rwa [startOf_eq_length h.digits, ← h.length, List.take_length] at hall

/-- The whole pass, from any contents of the work array. -/
theorem scatter_spec {m : ℕ} {xs work : List α} (hdigit : ∀ x ∈ xs, digit x < m)
    (hlen : work.length = xs.length) :
    ∃ ends, scatter digit xs (exclusiveSums (countDigits digit xs) m).1 work =
        some (ends, (buckets digit m xs).flatten) ∧
      ∀ d < m, ends d = startOf digit xs (d + 1) := by
  have hstart : Scattered digit m ([] ++ xs) [] (exclusiveSums (countDigits digit xs) m).1 work := by
    refine ⟨by simpa using hdigit, by simpa using hlen, ?_, by simp [countOf]⟩
    intro d hd
    simp [exclusiveSums_eq, countDigits_eq, hd, startOf, countOf]
  obtain ⟨ends, work', hscatter, hdone⟩ := scatter_scattered hstart
  simp only [List.nil_append] at hdone
  refine ⟨ends, ?_, ?_⟩
  · rw [hscatter, hdone.eq_flatten]
  · intro d hd
    rw [startOf_succ, hdone.bins d hd]

/-- The buckets hold exactly the entries. -/
theorem flatten_buckets_perm {m : ℕ} {xs : List α} (hdigit : ∀ x ∈ xs, digit x < m) :
    (buckets digit m xs).flatten.Perm xs := by
  have hbelow : ∀ k, (buckets digit k xs).flatten.Perm (xs.filter fun x => digit x < k) := by
    intro k
    induction k with
    | zero => simp [buckets]
    | succ k ih =>
      have hsplit := List.filter_append_perm (fun x => decide (digit x < k))
        (xs.filter fun x => digit x < k + 1)
      have hlow : ((xs.filter fun x => digit x < k + 1).filter fun x => decide (digit x < k)) =
          xs.filter fun x => digit x < k := by
        rw [List.filter_filter]
        refine List.filter_congr fun x _ => ?_
        rw [← Bool.decide_and, decide_eq_decide]
        omega
      have hlast : ((xs.filter fun x => digit x < k + 1).filter fun x => !decide (digit x < k)) =
          xs.filter fun x => digit x = k := by
        rw [List.filter_filter]
        refine List.filter_congr fun x _ => ?_
        rw [← decide_not, ← Bool.decide_and, decide_eq_decide]
        omega
      rw [hlow, hlast] at hsplit
      refine List.Perm.trans ?_ hsplit
      rw [buckets, List.range_succ, List.map_append, List.flatten_append]
      simpa [buckets] using ih.append_right (xs.filter fun x => digit x = k)
  have hall := hbelow m
  rwa [List.filter_eq_self.mpr fun x hx => by simpa using hdigit x hx] at hall

end M3bp.BucketScatter
