import Mathlib.Data.List.Sort

/-!
The quick sort on the cached key windows. The arrays `cache` and `pointers` are
always permuted together and appear as one list of entries. An access outside
the slice, or an index that would wrap below zero, makes the result `none`.
-/
namespace M3bp

/-- One position of `cache` and `pointers`. -/
structure Entry (ρ : Type) where
  cache : UInt64
  pointer : ρ
  deriving DecidableEq, Repr

namespace QuickSort

variable {ρ : Type}

def median (a b c : UInt64) : UInt64 := a + b + c - min (min a b) c - max (max a b) c

def swap (xs : List (Entry ρ)) (l r : ℕ) : Option (List (Entry ρ)) :=
  match xs[l]?, xs[r]? with
  | some a, some b => some ((xs.set l b).set r a)
  | _, _ => none

/-- `while(cache[l] < pivot){ ++l; }`, where `rest` is the slice from `l` on. -/
def scanUp (pivot : UInt64) : List (Entry ρ) → ℕ → Option ℕ
  | [], _ => none
  | e :: rest, l => if e.cache < pivot then scanUp pivot rest (l + 1) else some l

/-- `while(cache[r] > pivot){ --r; }`. -/
def scanDown (pivot : UInt64) (xs : List (Entry ρ)) : ℕ → Option ℕ
  | 0 =>
    match xs[0]? with
    | none => none
    | some e => if pivot < e.cache then none else some 0
  | r + 1 =>
    match xs[r + 1]? with
    | none => none
    | some e => if pivot < e.cache then scanDown pivot xs r else some (r + 1)

/-- The loop around the pivot; returns the slice and the last `l` and `r`. -/
def partitionLoop (pivot : UInt64) :
    ℕ → List (Entry ρ) → ℕ → ℕ → Option (List (Entry ρ) × ℕ × ℕ)
  | 0, _, _, _ => none
  | fuel + 1, xs, l, r => do
    let l ← scanUp pivot (xs.drop l) l
    let r ← scanDown pivot xs r
    if r ≤ l then
      some (xs, l, r)
    else
      let xs ← swap xs l r
      partitionLoop pivot fuel xs (l + 1) (r - 1)

def quickSort : ℕ → List (Entry ρ) → Option (List (Entry ρ))
  | 0, _ => none
  | _ + 1, [] => some []
  | _ + 1, [e] => some [e]
  | _ + 1, [a, b] => if b.cache < a.cache then some [b, a] else some [a, b]
  | fuel + 1, xs => do
    let first ← xs[0]?
    let middle ← xs[xs.length / 2]?
    let last ← xs[xs.length - 1]?
    let pivot := median first.cache middle.cache last.cache
    let (xs, l, r) ← partitionLoop pivot xs.length xs 0 (xs.length - 1)
    let left ← quickSort fuel (xs.take l)
    let xs := left ++ xs.drop l
    let right ← quickSort fuel (xs.drop (r + 1))
    some (xs.take (r + 1) ++ right)

/-- A list of three entries or more is partitioned. -/
theorem quickSort_of_long (fuel : ℕ) {xs : List (Entry ρ)} (hlong : 3 ≤ xs.length) :
    quickSort (fuel + 1) xs = (do
      let first ← xs[0]?
      let middle ← xs[xs.length / 2]?
      let last ← xs[xs.length - 1]?
      let pivot := median first.cache middle.cache last.cache
      let (xs, l, r) ← partitionLoop pivot xs.length xs 0 (xs.length - 1)
      let left ← quickSort fuel (xs.take l)
      let xs := left ++ xs.drop l
      let right ← quickSort fuel (xs.drop (r + 1))
      some (xs.take (r + 1) ++ right)) := by
  rcases xs with _ | ⟨a, _ | ⟨b, _ | ⟨c, rest⟩⟩⟩
  · simp at hlong
  · simp at hlong
  · simp at hlong
  · rfl

/-- The sum wraps, and so do the two differences. -/
theorem median_eq (a b c : UInt64) : median a b c = a ∨ median a b c = b ∨ median a b c = c := by
  have hmin : ∀ x y : UInt64, min x y = if x ≤ y then x else y := fun _ _ => rfl
  have hmax : ∀ x y : UInt64, max x y = if x ≤ y then y else x := fun _ _ => rfl
  simp only [median, hmin, hmax]
  grind

/-! What the loop keeps. -/

/-- Everything before `l` is at most the pivot, everything after `r` at least,
and both scans are stopped by some entry. -/
structure LoopInv (pivot : UInt64) (xs : List (Entry ρ)) (l r : ℕ) : Prop where
  bound : r < xs.length
  cross : l ≤ r + 1
  low : ∀ i e, i < l → xs[i]? = some e → e.cache ≤ pivot
  high : ∀ i e, r < i → xs[i]? = some e → pivot ≤ e.cache
  stopUp : ∃ i e, l ≤ i ∧ xs[i]? = some e ∧ pivot ≤ e.cache
  stopDown : ∃ i e, i ≤ r ∧ xs[i]? = some e ∧ e.cache ≤ pivot

theorem scanUp_spec {pivot : UInt64} {xs : List (Entry ρ)} {l : ℕ}
    (h : ∃ i e, l ≤ i ∧ xs[i]? = some e ∧ pivot ≤ e.cache) :
    ∃ l' e, scanUp pivot (xs.drop l) l = some l' ∧ l ≤ l' ∧ xs[l']? = some e ∧
      pivot ≤ e.cache ∧ ∀ i e, l ≤ i → i < l' → xs[i]? = some e → e.cache < pivot := by
  generalize hrest : xs.drop l = rest
  induction rest generalizing l with
  | nil =>
    obtain ⟨i, e, hi, he, -⟩ := h
    have hlen : i < xs.length := (List.getElem?_eq_some_iff.mp he).1
    have hdrop := congrArg List.length hrest
    simp only [List.length_drop, List.length_nil] at hdrop
    omega
  | cons e rest ih =>
    have hl : xs[l]? = some e := by
      have hhead := congrArg (fun ys => ys[0]?) hrest
      simpa using hhead
    have hdrop : xs.drop (l + 1) = rest := by
      rw [← List.drop_drop, hrest, List.drop_one, List.tail_cons]
    by_cases hlt : e.cache < pivot
    · obtain ⟨i, e', hi, he', hpivot⟩ := h
      have hne : l ≠ i := by
        intro heq
        subst heq
        rw [hl] at he'
        grind
      obtain ⟨l', e'', hscan, hle, hget, hge, hall⟩ :=
        ih ⟨i, e', by omega, he', hpivot⟩ hdrop
      refine ⟨l', e'', by simpa [scanUp, hlt] using hscan, by omega, hget, hge, ?_⟩
      intro j f hj hjl hf
      rcases Nat.eq_or_lt_of_le hj with rfl | hj
      · rw [hl] at hf
        grind
      · exact hall j f hj hjl hf
    · refine ⟨l, e, by simp [scanUp, hlt], le_refl l, hl, by grind, ?_⟩
      intro j f hj hjl
      omega

theorem scanDown_spec {pivot : UInt64} {xs : List (Entry ρ)} {r : ℕ} (hr : r < xs.length)
    (h : ∃ i e, i ≤ r ∧ xs[i]? = some e ∧ e.cache ≤ pivot) :
    ∃ r' e, scanDown pivot xs r = some r' ∧ r' ≤ r ∧ xs[r']? = some e ∧
      e.cache ≤ pivot ∧ ∀ i e, r' < i → i ≤ r → xs[i]? = some e → pivot < e.cache := by
  induction r with
  | zero =>
    obtain ⟨i, e, hi, he, hpivot⟩ := h
    obtain rfl : i = 0 := by omega
    have hnot : ¬ pivot < e.cache := by grind
    refine ⟨0, e, by simp [scanDown, he, hnot], le_refl 0, he, hpivot, ?_⟩
    intro j f hj hjl
    omega
  | succ r ih =>
    have hget : xs[r + 1]? = some xs[r + 1] := List.getElem?_eq_getElem hr
    by_cases hlt : pivot < xs[r + 1].cache
    · obtain ⟨i, e, hi, he, hpivot⟩ := h
      have hne : i ≠ r + 1 := by
        rintro rfl
        rw [hget] at he
        grind
      obtain ⟨r', e', hscan, hle, hget', hle', hall⟩ :=
        ih (by omega) ⟨i, e, by omega, he, hpivot⟩
      refine ⟨r', e', by simpa [scanDown, hget, hlt] using hscan, by omega, hget', hle', ?_⟩
      intro j f hj hjl hf
      rcases Nat.eq_or_lt_of_le hjl with rfl | hjl
      · rw [hget] at hf
        grind
      · exact hall j f hj (by omega) hf
    · refine ⟨r + 1, _, by simp [scanDown, hget, hlt], le_refl _, hget, by grind, ?_⟩
      intro j f hj hjl
      omega

theorem swap_eq {xs : List (Entry ρ)} {l r : ℕ} (hl : l < xs.length) (hr : r < xs.length) :
    swap xs l r = some ((xs.set l xs[r]).set r xs[l]) := by
  simp [swap, hl, hr]

/-- One round of the loop that does not end it. -/
theorem LoopInv.swap {pivot : UInt64} {xs : List (Entry ρ)} {l r : ℕ} (hr : r < xs.length)
    (hlt : l < r) (hlow : ∀ i e, i < l → xs[i]? = some e → e.cache ≤ pivot)
    (hhigh : ∀ i e, r < i → xs[i]? = some e → pivot ≤ e.cache)
    (hl' : pivot ≤ xs[l].cache) (hr' : xs[r].cache ≤ pivot) :
    LoopInv pivot ((xs.set l xs[r]).set r xs[l]) (l + 1) (r - 1) := by
  have hget : ∀ i, ((xs.set l xs[r]).set r xs[l])[i]? =
      if i = r then some xs[l] else if i = l then some xs[r] else xs[i]? := by
    intro i
    grind
  refine ⟨by simp; omega, by omega, ?_, ?_, ?_, ?_⟩
  · intro i e hi he
    rw [hget, if_neg (by omega)] at he
    split at he
    · cases he
      exact hr'
    · exact hlow i e (by omega) he
  · intro i e hi he
    rw [hget] at he
    split at he
    · cases he
      exact hl'
    · rw [if_neg (by omega)] at he
      exact hhigh i e (by omega) he
  · exact ⟨r, xs[l], by omega, by rw [hget, if_pos rfl], hl'⟩
  · exact ⟨l, xs[r], by omega, by rw [hget, if_neg (by omega), if_pos rfl], hr'⟩

/-- What the loop leaves: the slice falls into a part up to `l`, at most one
entry that equals the pivot, and a part after `r`. -/
structure Partitioned (pivot : UInt64) (xs ys : List (Entry ρ)) (l r : ℕ) : Prop where
  perm : ys.Perm xs
  bound : l < ys.length
  cross : r ≤ l ∧ l ≤ r + 1
  low : ∀ i e, i < l → ys[i]? = some e → e.cache ≤ pivot
  high : ∀ i e, r < i → ys[i]? = some e → pivot ≤ e.cache
  middle : ∀ e, l = r → ys[l]? = some e → e.cache = pivot

theorem partitionLoop_spec (fuel : ℕ) {pivot : UInt64} {xs : List (Entry ρ)} {l r : ℕ}
    (hinv : LoopInv pivot xs l r) (hfuel : r + 2 ≤ l + 2 * fuel) :
    ∃ ys l' r', partitionLoop pivot fuel xs l r = some (ys, l', r') ∧
      Partitioned pivot xs ys l' r' := by
  induction fuel generalizing xs l r with
  | zero =>
    have hcross := hinv.cross
    omega
  | succ fuel ih =>
    have hcross := hinv.cross
    obtain ⟨l', el, hup, hle, hgetl, hgel, hbelow⟩ := scanUp_spec hinv.stopUp
    obtain ⟨r', er, hdown, hre, hgetr, hler, habove⟩ := scanDown_spec hinv.bound hinv.stopDown
    obtain ⟨hlen, hel⟩ := List.getElem?_eq_some_iff.mp hgetl
    obtain ⟨hlenr, her⟩ := List.getElem?_eq_some_iff.mp hgetr
    have hlow : ∀ i e, i < l' → xs[i]? = some e → e.cache ≤ pivot := by
      intro i e hi he
      by_cases hil : i < l
      · exact hinv.low i e hil he
      · have hlt := hbelow i e (by omega) hi he
        grind
    have hhigh : ∀ i e, r' < i → xs[i]? = some e → pivot ≤ e.cache := by
      intro i e hi he
      by_cases hir : r < i
      · exact hinv.high i e hir he
      · have hlt := habove i e hi (by omega) he
        grind
    by_cases hbreak : r' ≤ l'
    · refine ⟨xs, l', r', by simp [partitionLoop, hup, hdown, hbreak], ?_⟩
      refine ⟨List.Perm.refl _, hlen, ⟨hbreak, ?_⟩, hlow, hhigh, ?_⟩
      · -- an entry strictly between the two would be below and above the pivot
        by_contra hgap
        have hget : xs[r' + 1]? = some xs[r' + 1] := List.getElem?_eq_getElem (by omega)
        have h1 := hlow (r' + 1) _ (by omega) hget
        have h2 := hhigh (r' + 1) _ (by omega) hget
        by_cases hin : l ≤ r' + 1
        · have h3 := hbelow (r' + 1) _ hin (by omega) hget
          grind
        · have h3 := habove (r' + 1) _ (by omega) (by omega) hget
          grind
      · rintro e rfl he
        rw [hgetl] at he hgetr
        cases he
        cases hgetr
        grind
    · have hinv' := @LoopInv.swap _ pivot _ _ _ hlenr (by omega : l' < r') hlow hhigh
        (by rwa [hel]) (by rwa [her])
      obtain ⟨ys, l'', r'', hloop, hpart⟩ := ih hinv' (by omega)
      refine ⟨ys, l'', r'', ?_, ?_⟩
      · simp [partitionLoop, hup, hdown, hbreak, swap_eq hlen hlenr, hloop]
      · exact ⟨hpart.perm.trans (List.set_set_perm hlen hlenr), hpart.bound, hpart.cross,
          hpart.low, hpart.high, hpart.middle⟩

/-- The pivot is one of the caches, so it stops both scans at first. -/
theorem loopInv_start {xs : List (Entry ρ)} {pivot : UInt64} (hpivot : ∃ e ∈ xs, e.cache = pivot) :
    LoopInv pivot xs 0 (xs.length - 1) := by
  obtain ⟨e, hmem, he⟩ := hpivot
  obtain ⟨i, hi, hget⟩ := List.getElem_of_mem hmem
  have hsome : xs[i]? = some e := by rw [List.getElem?_eq_getElem hi, hget]
  refine ⟨by omega, by omega, by omega, ?_, ⟨i, e, by omega, hsome, by grind⟩,
    ⟨i, e, by omega, hsome, by grind⟩⟩
  intro j f hj hf
  have hlen := (List.getElem?_eq_some_iff.mp hf).1
  omega

theorem exists_pivot {xs : List (Entry ρ)} (h : 0 < xs.length) :
    ∃ first middle last, xs[0]? = some first ∧ xs[xs.length / 2]? = some middle ∧
      xs[xs.length - 1]? = some last ∧
      ∃ e ∈ xs, e.cache = median first.cache middle.cache last.cache := by
  have hmid : xs.length / 2 < xs.length := by omega
  have hlast : xs.length - 1 < xs.length := by omega
  refine ⟨xs[0], xs[xs.length / 2], xs[xs.length - 1], by simp, by simp, by simp, ?_⟩
  rcases median_eq xs[0].cache xs[xs.length / 2].cache xs[xs.length - 1].cache with h | h | h
  · exact ⟨_, List.getElem_mem _, h.symm⟩
  · exact ⟨_, List.getElem_mem _, h.symm⟩
  · exact ⟨_, List.getElem_mem _, h.symm⟩

/-- Sorting the two outer parts of a partitioned slice sorts the slice. -/
theorem Partitioned.sorted {pivot : UInt64} {xs ys left right : List (Entry ρ)} {l r : ℕ}
    (h : Partitioned pivot xs ys l r) (hleft : left.Perm (ys.take l))
    (hright : right.Perm (ys.drop (r + 1)))
    (hls : left.Pairwise fun a b => a.cache ≤ b.cache)
    (hrs : right.Pairwise fun a b => a.cache ≤ b.cache) :
    let middle := (ys.drop l).take (r + 1 - l)
    (left ++ middle ++ right).Perm xs ∧
    (left ++ middle ++ right).Pairwise fun a b => a.cache ≤ b.cache := by
  intro middle
  have hcross := h.cross
  have hsplit : ys.take l ++ middle ++ ys.drop (r + 1) = ys := by
    have hdrop : middle ++ ys.drop (r + 1) = ys.drop l := by
      have htail := List.take_append_drop (r + 1 - l) (ys.drop l)
      rwa [List.drop_drop, show l + (r + 1 - l) = r + 1 by omega] at htail
    rw [List.append_assoc, hdrop, List.take_append_drop]
  have hlow : ∀ e ∈ left, e.cache ≤ pivot := by
    intro e he
    obtain ⟨i, hi, hget⟩ := List.getElem_of_mem (hleft.mem_iff.mp he)
    simp only [List.length_take] at hi
    exact h.low i e (by omega) (by rw [← hget, List.getElem_take]; simp)
  have hhigh : ∀ e ∈ right, pivot ≤ e.cache := by
    intro e he
    obtain ⟨i, hi, hget⟩ := List.getElem_of_mem (hright.mem_iff.mp he)
    simp only [List.length_drop] at hi
    exact h.high (r + 1 + i) e (by omega) (by rw [← hget, List.getElem_drop]; simp)
  have hlen : middle.length ≤ 1 := by
    simp only [middle, List.length_take]
    omega
  have hmiddle : ∀ e ∈ middle, e.cache = pivot := by
    intro e he
    obtain ⟨i, hi, hget⟩ := List.getElem_of_mem he
    have hbound := h.bound
    have hmid : middle.length = r + 1 - l := by
      simp only [middle, List.length_take, List.length_drop]
      omega
    have hzero : i = 0 := by omega
    subst hzero
    refine h.middle e (by omega) ?_
    rw [← hget]
    simp [middle]
  constructor
  · have hperm := (hleft.append_right middle).append hright
    rw [hsplit] at hperm
    exact hperm.trans h.perm
  · refine List.pairwise_append.mpr ⟨List.pairwise_append.mpr ⟨hls, ?_, ?_⟩, hrs, ?_⟩
    · match middle, hlen with
      | [], _ => exact List.Pairwise.nil
      | [e], _ => exact List.pairwise_singleton _ _
    · intro a ha b hb
      rw [hmiddle b hb]
      exact hlow a ha
    · intro a ha b hb
      have hb' := hhigh b hb
      rcases List.mem_append.mp ha with ha | ha
      · have ha' := hlow a ha
        grind
      · rw [hmiddle a ha]
        exact hb'

theorem quickSort_spec (fuel : ℕ) (xs : List (Entry ρ)) (hfuel : xs.length < fuel) :
    ∃ ys, quickSort fuel xs = some ys ∧ ys.Perm xs ∧
      ys.Pairwise fun a b => a.cache ≤ b.cache := by
  induction fuel generalizing xs with
  | zero => omega
  | succ fuel ih =>
    match xs, hfuel with
    | [], _ => exact ⟨[], rfl, List.Perm.refl _, List.Pairwise.nil⟩
    | [e], _ => exact ⟨[e], rfl, List.Perm.refl _, List.pairwise_singleton _ _⟩
    | [a, b], _ =>
      by_cases hlt : b.cache < a.cache
      · exact ⟨[b, a], by simp [quickSort, hlt], List.Perm.swap a b [], by simp; grind⟩
      · exact ⟨[a, b], by simp [quickSort, hlt], List.Perm.refl _, by simp; grind⟩
    | a :: b :: c :: rest, hfuel =>
      generalize hxs : a :: b :: c :: rest = xs at hfuel
      have hlen : 2 < xs.length := by rw [← hxs]; simp
      obtain ⟨first, middle, last, hfirst, hmiddle, hlast, hpivot⟩ :=
        exists_pivot (show 0 < xs.length by omega)
      obtain ⟨ys, l, r, hloop, hpart⟩ :=
        partitionLoop_spec xs.length (loopInv_start hpivot) (by omega)
      have hys := hpart.perm.length_eq
      have hbound := hpart.bound
      have hcross := hpart.cross
      obtain ⟨left, hleft, hlperm, hls⟩ := ih (ys.take l) (by simp; omega)
      obtain ⟨right, hright, hrperm, hrs⟩ := ih (ys.drop (r + 1)) (by simp; omega)
      have hll : left.length = l := by
        rw [hlperm.length_eq, List.length_take]
        omega
      have htake : (left ++ ys.drop l).take (r + 1) = left ++ (ys.drop l).take (r + 1 - l) := by
        rw [List.take_append, List.take_of_length_le (by omega), hll]
      have hdrop : (left ++ ys.drop l).drop (r + 1) = ys.drop (r + 1) := by
        rw [List.drop_append, List.drop_of_length_le (by omega), hll, List.drop_drop,
          show l + (r + 1 - l) = r + 1 by omega, List.nil_append]
      refine ⟨left ++ (ys.drop l).take (r + 1 - l) ++ right, ?_,
        hpart.sorted hlperm hrperm hls hrs⟩
      subst hxs
      simp only [quickSort, hfirst, hmiddle, hlast, hloop, hleft, hdrop, hright, htake,
        Option.bind_eq_bind, Option.bind_some]

/-- Of three values one lies between the other two. -/
def IsMedian (m a b c : UInt64) : Prop :=
  ∃ low high, [low, m, high].Perm [a, b, c] ∧ low ≤ m ∧ m ≤ high

theorem isMedian_of_le {a b c : UInt64} (hab : a ≤ b) (hbc : b ≤ c) :
    IsMedian (median a b c) a b c := by
  have hac : a ≤ c := UInt64.le_trans hab hbc
  have hmin : min (min a b) c = a := by
    show (if (if a ≤ b then a else b) ≤ c then (if a ≤ b then a else b) else c) = a
    rw [if_pos hab, if_pos hac]
  have hmax : max (max a b) c = c := by
    show (if (if a ≤ b then b else a) ≤ c then c else (if a ≤ b then b else a)) = c
    rw [if_pos hab, if_pos hbc]
  have hmedian : median a b c = b := by
    unfold median
    rw [hmin, hmax]
    grind
  rw [hmedian]
  exact ⟨a, c, List.Perm.refl _, hab, hbc⟩

theorem median_swap_left (a b c : UInt64) : median a b c = median b a c := by
  have hmin : ∀ x y : UInt64, min x y = if x ≤ y then x else y := fun _ _ => rfl
  have hmax : ∀ x y : UInt64, max x y = if x ≤ y then y else x := fun _ _ => rfl
  simp only [median, hmin, hmax]
  grind

theorem median_swap_right (a b c : UInt64) : median a b c = median a c b := by
  have hmin : ∀ x y : UInt64, min x y = if x ≤ y then x else y := fun _ _ => rfl
  have hmax : ∀ x y : UInt64, max x y = if x ≤ y then y else x := fun _ _ => rfl
  simp only [median, hmin, hmax]
  grind

theorem isMedian_swap_left {a b c : UInt64} (h : IsMedian (median a b c) a b c) :
    IsMedian (median b a c) b a c := by
  obtain ⟨low, high, hperm, hbounds⟩ := h
  rw [median_swap_left] at hperm hbounds
  exact ⟨low, high, hperm.trans (List.Perm.swap b a [c]), hbounds⟩

theorem isMedian_swap_right {a b c : UInt64} (h : IsMedian (median a b c) a b c) :
    IsMedian (median a c b) a c b := by
  obtain ⟨low, high, hperm, hbounds⟩ := h
  rw [median_swap_right] at hperm hbounds
  exact ⟨low, high, hperm.trans ((List.Perm.swap c b []).cons a), hbounds⟩

/-- The median comes out right although the sum and the differences wrap. -/
theorem isMedian_median (a b c : UInt64) : IsMedian (median a b c) a b c := by
  rcases UInt64.le_total a b with hab | hba
  · rcases UInt64.le_total b c with hbc | hcb
    · exact isMedian_of_le hab hbc
    · rcases UInt64.le_total a c with hac | hca
      · exact isMedian_swap_right (isMedian_of_le hac hcb)
      · exact isMedian_swap_right (isMedian_swap_left (isMedian_of_le hca hab))
  · rcases UInt64.le_total a c with hac | hca
    · exact isMedian_swap_left (isMedian_of_le hba hac)
    · rcases UInt64.le_total b c with hbc | hcb
      · exact isMedian_swap_left (isMedian_swap_right (isMedian_of_le hbc hca))
      · exact isMedian_swap_left
          (isMedian_swap_right (isMedian_swap_left (isMedian_of_le hcb hba)))

/-- More fuel than the sort needs changes nothing. -/
theorem quickSort_succ {fuel : ℕ} {xs ys : List (Entry ρ)} (h : quickSort fuel xs = some ys) :
    quickSort (fuel + 1) xs = some ys := by
  induction fuel generalizing xs ys with
  | zero => cases h
  | succ fuel ih =>
    match xs, h with
    | [], h => exact h
    | [e], h => exact h
    | [a, b], h => exact h
    | a :: b :: c :: rest, h =>
      simp only [quickSort, Option.bind_eq_bind, Option.bind_eq_some_iff] at h
      obtain ⟨first, hfirst, middle, hmiddle, last, hlast, ⟨zs, l, r⟩, hloop, left, hleft, right,
        hright, hys⟩ := h
      simp only [quickSort, hfirst, hmiddle, hlast, hloop, ih hleft, ih hright, hys,
        Option.bind_eq_bind, Option.bind_some]

theorem quickSort_mono {fuel fuel' : ℕ} {xs ys : List (Entry ρ)} (h : quickSort fuel xs = some ys)
    (hle : fuel ≤ fuel') : quickSort fuel' xs = some ys := by
  induction hle with
  | refl => exact h
  | step _ ih => exact quickSort_succ ih

/-- The sort ends without an access outside the arrays and without an index below zero, for
all cached windows and whatever the pointers are. -/
theorem quick_sort_sorts {n : ℕ} (cache : Fin n → UInt64) (pointers : Fin n → ρ) :
    ∃ ys, (∀ fuel, n < fuel →
        quickSort fuel (List.ofFn fun i => ⟨cache i, pointers i⟩) = some ys) ∧
      ys.Perm (List.ofFn fun i => ⟨cache i, pointers i⟩) ∧
      (ys.Pairwise fun a b => a.cache ≤ b.cache) ∧
      ∀ a b c, IsMedian (median a b c) a b c := by
  have hlength : (List.ofFn fun i => (⟨cache i, pointers i⟩ : Entry ρ)).length = n :=
    List.length_ofFn
  obtain ⟨ys, hys, hperm, hsorted⟩ :=
    quickSort_spec (n + 1) (List.ofFn fun i => ⟨cache i, pointers i⟩) (by omega)
  exact ⟨ys, fun fuel hfuel => quickSort_mono hys hfuel, hperm, hsorted, isMedian_median⟩

end QuickSort

end M3bp
