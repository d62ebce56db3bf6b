import Mathlib.Algebra.BigOperators.Group.Finset.Basic
import Mathlib.Algebra.GroupWithZero.Nat
import Mathlib.Algebra.Order.BigOperators.Group.Finset
import Mathlib.Data.Fintype.BigOperators
import Mathlib.Order.Interval.Finset.Nat

/-!
Counts kept over a finite family when one member of the family changes.
-/
namespace M3bp.Counting

open Finset

variable {ι : Type*} [DecidableEq ι]

/-- Two families that differ in one member have sums that differ by it. -/
theorem sum_add_of_eq_off (s : Finset ι) (f g : ι → ℕ) (i : ι) (hi : i ∈ s)
    (heq : ∀ j ∈ s, j ≠ i → f j = g j) :
    ∑ j ∈ s, f j + g i = ∑ j ∈ s, g j + f i := by
  have hrest : ∑ j ∈ s.erase i, f j = ∑ j ∈ s.erase i, g j :=
    Finset.sum_congr rfl fun j hj =>
      heq j (Finset.mem_of_mem_erase hj) (Finset.ne_of_mem_erase hj)
  rw [← Finset.add_sum_erase s f hi, ← Finset.add_sum_erase s g hi, hrest]
  omega

theorem sum_univ_add_of_eq_off [Fintype ι] (f g : ι → ℕ) (i : ι)
    (heq : ∀ j, j ≠ i → f j = g j) :
    ∑ j, f j + g i = ∑ j, g j + f i :=
  sum_add_of_eq_off Finset.univ f g i (Finset.mem_univ i) fun j _ => heq j

omit [DecidableEq ι] in
theorem exists_pos_of_sum_pos {s : Finset ι} {f : ι → ℕ} (h : 0 < ∑ j ∈ s, f j) :
    ∃ j ∈ s, 0 < f j := by
  by_contra hn
  push Not at hn
  have hzero : ∑ j ∈ s, f j = 0 :=
    Finset.sum_eq_zero fun j hj => Nat.le_zero.mp (hn j hj)
  omega

/-- A member that newly meets a condition adds one to the number that do. -/
theorem card_filter_insert {s : Finset ι} {p q : ι → Prop} [DecidablePred p] [DecidablePred q]
    {i : ι} (hi : i ∈ s) (hp : ¬ p i) (hq : q i) (heq : ∀ j ∈ s, j ≠ i → (q j ↔ p j)) :
    (s.filter q).card = (s.filter p).card + 1 := by
  have hset : s.filter q = insert i (s.filter p) := by
    ext j
    simp only [Finset.mem_insert, Finset.mem_filter]
    by_cases hj : j = i
    · subst j
      simp [hi, hq]
    · constructor
      · rintro ⟨hs, hqj⟩
        exact Or.inr ⟨hs, (heq j hs hj).mp hqj⟩
      · rintro (h | ⟨hs, hpj⟩)
        · exact absurd h hj
        · exact ⟨hs, (heq j hs hj).mpr hpj⟩
  rw [hset, Finset.card_insert_of_notMem]
  simp [hp]

/-- A sum over the places of a list. -/
theorem sum_range_getElem? {α : Type*} (f : α → ℕ) (l : List α) :
    ∑ i ∈ range l.length, (l[i]?).elim 0 f = (l.map f).sum := by
  induction l using List.reverseRecOn with
  | nil => rfl
  | append_singleton l a ih =>
    have hsame : ∑ i ∈ range l.length, ((l ++ [a])[i]?).elim 0 f =
        ∑ i ∈ range l.length, (l[i]?).elim 0 f :=
      Finset.sum_congr rfl fun i hi => by
        rw [List.getElem?_append_left (mem_range.mp hi)]
    rw [List.length_append, List.length_singleton, Finset.sum_range_succ, hsame, ih]
    simp

/-- Where a quantity is at most one in all, what depends on it comes from one member. -/
theorem sum_eq_of_unique {α : Type*} {f k : α → ℕ} {l : List α} {a : α} (ha : a ∈ l)
    (hone : k a = 1) (hsum : (l.map k).sum ≤ 1) (hf : ∀ b, k b = 0 → f b = 0) :
    (l.map f).sum = f a := by
  induction l with
  | nil => cases ha
  | cons b l ih =>
    rw [List.map_cons, List.sum_cons] at hsum ⊢
    rcases List.mem_cons.mp ha with rfl | ha
    · have hrest : (l.map f).sum = 0 := by
        apply List.sum_eq_zero
        intro x hx
        obtain ⟨c, hc, rfl⟩ := List.mem_map.mp hx
        have hle := List.single_le_sum (fun _ _ => Nat.zero_le _) _ (List.mem_map_of_mem (f := k) hc)
        exact hf c (by omega)
      omega
    · have hle := List.single_le_sum (fun _ _ => Nat.zero_le _) _ (List.mem_map_of_mem (f := k) ha)
      rw [hf b (by omega), ih ha (by omega), Nat.zero_add]

/-- Weights that add up to one at most stand at one place. -/
theorem eq_of_sum_le_one {α : Type*} {k : α → ℕ} {l : List α} (hsum : (l.map k).sum ≤ 1) {i j : ℕ}
    {a b : α} (hi : l[i]? = some a) (hj : l[j]? = some b) (ha : 0 < k a) (hb : 0 < k b) : i = j := by
  by_contra hne
  have hlt : ∀ {i a}, l[i]? = some a → i ∈ range l.length := fun hi =>
    mem_range.mpr (List.getElem?_eq_some_iff.mp hi).1
  have hpair : {i, j} ⊆ range l.length := by
    intro m hm
    rcases Finset.mem_insert.mp hm with rfl | hm
    · exact hlt hi
    · rw [Finset.mem_singleton.mp hm]
      exact hlt hj
  have hle := Finset.sum_le_sum_of_subset (f := fun i => (l[i]?).elim 0 k) hpair
  rw [Finset.sum_pair hne, sum_range_getElem?, hi, hj, Option.elim_some, Option.elim_some] at hle
  omega

theorem sum_map_ite {α : Type*} (p : α → Prop) [DecidablePred p] (l : List α) :
    (l.map fun a => if p a then 1 else 0).sum = l.countP fun a => p a := by
  induction l with
  | nil => rfl
  | cons a l ih => by_cases ha : p a <;> simp [ha, ih, Nat.add_comm]

/-- Replacing an element of a list. -/
theorem count_set_add {α : Type*} [DecidableEq α] [BEq α] [LawfulBEq α] {l : List α} {i : ℕ} {a : α}
    (h : l[i]? = some a) (b x : α) : (l.set i b).count x + (if a = x then 1 else 0) =
      l.count x + if b = x then 1 else 0 := by
  obtain ⟨hlt, heq⟩ := List.getElem?_eq_some_iff.mp h
  have hpos : a = x → 0 < l.count x := by
    rintro rfl
    exact List.count_pos_iff.mpr (List.mem_of_getElem? h)
  rw [List.count_set hlt, heq]
  simp only [beq_iff_eq]
  by_cases hx : a = x
  · have hcount := hpos hx
    rw [if_pos hx]
    omega
  · rw [if_neg hx]
    omega

/-- The numbers in the intervals of a list. -/
def covered {α : Type*} (start size : α → ℕ) : List α → Finset ℕ
  | [] => ∅
  | a :: l => Finset.Ico (start a) (start a + size a) ∪ covered start size l

theorem mem_covered {α : Type*} {start size : α → ℕ} {l : List α} {x : ℕ} :
    x ∈ covered start size l ↔ ∃ a ∈ l, start a ≤ x ∧ x < start a + size a := by
  induction l with
  | nil => simp [covered]
  | cons a l ih => simp [covered, ih]

theorem card_covered {α : Type*} {start size : α → ℕ} {l : List α}
    (hdisjoint : l.Pairwise fun a b =>
      start a + size a ≤ start b ∨ start b + size b ≤ start a) :
    (covered start size l).card = (l.map size).sum := by
  induction l with
  | nil => rfl
  | cons a l ih =>
    obtain ⟨ha, hl⟩ := List.pairwise_cons.mp hdisjoint
    have hoff : Disjoint (Finset.Ico (start a) (start a + size a)) (covered start size l) := by
      apply Finset.disjoint_left.mpr
      intro x hx hxl
      obtain ⟨b, hb, hlo, hhi⟩ := mem_covered.mp hxl
      have hxa := Finset.mem_Ico.mp hx
      have hab := ha b hb
      omega
    rw [covered, Finset.card_union_of_disjoint hoff, ih hl, Nat.card_Ico, List.map_cons,
      List.sum_cons]
    omega

/-- Disjoint intervals inside a range are together no longer than it is. -/
theorem sum_sizes_le {α : Type*} (start size : α → ℕ) (lo hi : ℕ) {l : List α}
    (hdisjoint : l.Pairwise fun a b =>
      start a + size a ≤ start b ∨ start b + size b ≤ start a)
    (hinside : ∀ a ∈ l, lo ≤ start a ∧ start a + size a ≤ hi) :
    (l.map size).sum ≤ hi - lo := by
  have hsub : covered start size l ⊆ Finset.Ico lo hi := by
    intro x hx
    obtain ⟨a, ha, hstart, hend⟩ := mem_covered.mp hx
    have hrange := hinside a ha
    exact Finset.mem_Ico.mpr ⟨by omega, by omega⟩
  calc (l.map size).sum = (covered start size l).card := (card_covered hdisjoint).symm
    _ ≤ (Finset.Ico lo hi).card := Finset.card_le_card hsub
    _ = hi - lo := Nat.card_Ico lo hi

end M3bp.Counting
