import M3bp.RadixCalls

/-!
The sort looks at the pointers through its view only. If the records get other
names, and the view is taken through the names, every step does the same thing to
the renamed entries.
-/
namespace M3bp

variable {ρ σ : Type} (f : ρ → σ)

def Entry.rename (e : Entry ρ) : Entry σ := { cache := e.cache, pointer := f e.pointer }

@[simp] theorem Entry.rename_cache (e : Entry ρ) : (e.rename f).cache = e.cache := rfl

@[simp] theorem Entry.rename_pointer (e : Entry ρ) : (e.rename f).pointer = f e.pointer := rfl

/-- The view of the records behind the names. -/
def KeyView.rename (view : KeyView σ) : KeyView ρ :=
  { keyLength := fun r => view.keyLength (f r), block := fun r => view.block (f r) }

namespace QuickSort

theorem swap_rename (xs : List (Entry ρ)) (l r : ℕ) :
    swap (xs.map (Entry.rename f)) l r = (swap xs l r).map (List.map (Entry.rename f)) := by
  unfold swap
  rw [List.getElem?_map, List.getElem?_map]
  rcases xs[l]? with _ | a
  · rfl
  · rcases xs[r]? with _ | b
    · rfl
    · simp [List.map_set]

theorem scanUp_rename (pivot : UInt64) (rest : List (Entry ρ)) (l : ℕ) :
    scanUp pivot (rest.map (Entry.rename f)) l = scanUp pivot rest l := by
  induction rest generalizing l with
  | nil => rfl
  | cons e rest ih => rw [List.map_cons, scanUp, scanUp, ih, Entry.rename_cache]

theorem scanDown_rename (pivot : UInt64) (xs : List (Entry ρ)) (r : ℕ) :
    scanDown pivot (xs.map (Entry.rename f)) r = scanDown pivot xs r := by
  induction r with
  | zero =>
    rw [scanDown, scanDown, List.getElem?_map]
    rcases xs[0]? with _ | e <;> rfl
  | succ r ih =>
    rw [scanDown, scanDown, List.getElem?_map, ih]
    rcases xs[r + 1]? with _ | e <;> rfl

theorem partitionLoop_rename (pivot : UInt64) (fuel : ℕ) (xs : List (Entry ρ)) (l r : ℕ) :
    partitionLoop pivot fuel (xs.map (Entry.rename f)) l r =
      (partitionLoop pivot fuel xs l r).map fun out => (out.1.map (Entry.rename f), out.2) := by
  induction fuel generalizing xs l r with
  | zero => rfl
  | succ fuel ih =>
    rw [partitionLoop, partitionLoop, ← List.map_drop, scanUp_rename]
    rcases scanUp pivot (xs.drop l) l with _ | l'
    · rfl
    simp only [Option.bind_eq_bind, Option.bind_some, scanDown_rename]
    rcases scanDown pivot xs r with _ | r'
    · rfl
    simp only [Option.bind_some]
    by_cases hcross : r' ≤ l'
    · rw [if_pos hcross, if_pos hcross]
      rfl
    · rw [if_neg hcross, if_neg hcross, swap_rename]
      rcases swap xs l' r' with _ | ys
      · rfl
      · simp only [Option.map_some, Option.bind_some, ih]

theorem quickSort_rename (fuel : ℕ) (xs : List (Entry ρ)) :
    quickSort fuel (xs.map (Entry.rename f)) =
      (quickSort fuel xs).map (List.map (Entry.rename f)) := by
  induction fuel generalizing xs with
  | zero => rfl
  | succ fuel ih =>
    by_cases hlong : 3 ≤ xs.length
    · have hlong' : 3 ≤ (xs.map (Entry.rename f)).length := by simpa using hlong
      rw [quickSort_of_long fuel hlong, quickSort_of_long fuel hlong', List.length_map,
        List.getElem?_map, List.getElem?_map, List.getElem?_map]
      rcases xs[0]? with _ | first
      · rfl
      rcases xs[xs.length / 2]? with _ | middle
      · rfl
      rcases xs[xs.length - 1]? with _ | last
      · rfl
      simp only [Option.map_some, Option.bind_eq_bind, Option.bind_some, Entry.rename_cache,
        partitionLoop_rename]
      rcases partitionLoop (median first.cache middle.cache last.cache) xs.length xs 0
        (xs.length - 1) with _ | ⟨ys, l, r⟩
      · rfl
      simp only [Option.map_some, Option.bind_some, ← List.map_take, ih]
      rcases quickSort fuel (ys.take l) with _ | left
      · rfl
      simp only [Option.map_some, Option.bind_some, ← List.map_drop, ← List.map_append, ih]
      rcases quickSort fuel ((left ++ ys.drop l).drop (r + 1)) with _ | right
      · rfl
      simp only [Option.map_some, Option.bind_some, ← List.map_take, ← List.map_append]
    · rcases xs with _ | ⟨a, _ | ⟨b, _ | ⟨c, rest⟩⟩⟩
      · rfl
      · rfl
      · change (if b.cache < a.cache then some [b.rename f, a.rename f]
            else some [a.rename f, b.rename f]) =
          Option.map (List.map (Entry.rename f))
            (if b.cache < a.cache then some [b, a] else some [a, b])
        split <;> rfl
      · simp at hlong

end QuickSort

namespace BucketScatter

variable {α β : Type}

theorem countDigits_map (g : α → β) (digit : β → ℕ) (xs : List α) :
    countDigits digit (xs.map g) = countDigits (fun x => digit (g x)) xs := by
  rw [countDigits, countDigits, List.foldl_map]

theorem scatter_map (g : α → β) (digit : β → ℕ) (xs : List α) (bins : ℕ → ℕ) (work : List α) :
    scatter digit (xs.map g) bins (work.map g) =
      (scatter (fun x => digit (g x)) xs bins work).map fun out => (out.1, out.2.map g) := by
  induction xs generalizing bins work with
  | nil => rfl
  | cons x xs ih =>
    simp only [List.map_cons, scatter, List.length_map]
    by_cases hlt : bins (digit (g x)) < work.length
    · rw [if_pos hlt, if_pos hlt, ← List.map_set, ih]
    · rw [if_neg hlt, if_neg hlt]
      rfl

end BucketScatter

namespace Slices

def rename (s : Slices ρ) : Slices σ :=
  { equalsToLeft := s.equalsToLeft
    primary := s.primary.map (Entry.rename f)
    work := s.work.map (Entry.rename f) }

theorem take_rename (s : Slices ρ) (k : ℕ) : (s.rename f).take k = (s.take k).rename f := by
  simp [rename, take]

theorem drop_rename (s : Slices ρ) (k : ℕ) : (s.rename f).drop k = (s.drop k).rename f := by
  simp [rename, drop]

theorem append_rename (s t : Slices ρ) :
    (s.rename f).append (t.rename f) = (s.append t).rename f := by
  simp [rename, append]

theorem onSlices_rename {g : Slices ρ → Option (Slices ρ)} {g' : Slices σ → Option (Slices σ)}
    (h : ∀ s, g' (s.rename f) = (g s).map (rename f)) (ks : List ℕ) (s : Slices ρ) :
    onSlices g' ks (s.rename f) = (onSlices g ks s).map (rename f) := by
  induction ks generalizing s with
  | nil => rfl
  | cons k ks ih =>
    rw [onSlices, onSlices, take_rename, drop_rename, h, ih]
    rcases g (s.take k) with _ | head
    · rfl
    simp only [Option.map_some, Option.bind_eq_bind, Option.bind_some]
    rcases onSlices g ks (s.drop k) with _ | tail
    · rfl
    simp only [Option.map_some, Option.bind_some, append_rename]

end Slices

namespace RadixSort

variable (view : KeyView σ)

theorem loadWork_rename (depth : ℕ) (s : Slices ρ) :
    loadWork view depth (s.rename f) = (loadWork (view.rename f) depth s).rename f := by
  simp only [loadWork, Slices.rename, List.zipWith_map, List.map_zipWith]
  rfl

theorem isFinished_rename (depth : ℕ) (s : Slices ρ) :
    isFinished view depth (s.rename f) = isFinished (view.rename f) depth s := by
  simp only [isFinished, Slices.rename, List.all_map]
  rfl

theorem copyCache_rename (s : Slices ρ) : copyCache (s.rename f) = (copyCache s).rename f := by
  simp only [copyCache, Slices.rename, List.zipWith_map, List.map_zipWith]
  rfl

theorem markRest_rename (previous : Entry ρ) (rest : List (Entry ρ)) (marks : List Bool) :
    markRest (previous.rename f) (rest.map (Entry.rename f)) marks = markRest previous rest marks := by
  induction rest generalizing previous marks with
  | nil => rfl
  | cons e rest ih =>
    cases marks with
    | nil => rfl
    | cons b marks =>
      rw [List.map_cons, markRest, markRest, ih]
      rfl

theorem markEqual_rename (s : Slices ρ) : markEqual (s.rename f) = (markEqual s).rename f := by
  obtain ⟨marks, primary, work⟩ := s
  cases primary with
  | nil => rfl
  | cons e rest =>
    cases marks with
    | nil => rfl
    | cons b marks =>
      simp only [markEqual, Slices.rename, List.map_cons, markRest_rename]

theorem runLengths_rename (xs : List (Entry ρ)) :
    runLengths (xs.map (Entry.rename f)) = runLengths xs := by
  induction xs with
  | nil => rfl
  | cons e xs ih =>
    cases xs with
    | nil => rfl
    | cons e' rest =>
      rw [List.map_cons] at ih
      rw [List.map_cons, List.map_cons, runLengths, runLengths, ih]
      rfl

theorem orient_rename (swapped : Bool) (s : Slices ρ) :
    orient swapped (s.rename f) = (orient swapped s).rename f := by
  cases swapped <;> rfl

variable {view} {recur : ℕ → Bool → Slices ρ → Option (Slices ρ)}
  {recur' : ℕ → Bool → Slices σ → Option (Slices σ)}

theorem sortRuns_rename (h : ∀ depth swapped s, recur' depth swapped (s.rename f) =
      (recur depth swapped s).map (Slices.rename f)) (depth : ℕ) (swapped : Bool) (s : Slices ρ) :
    sortRuns recur' depth swapped (s.rename f) =
      (sortRuns recur depth swapped s).map (Slices.rename f) := by
  have horient : ∀ {τ : Type} (s : Slices τ),
      (if swapped then { s with work := s.primary }.flip else s) = orient swapped s := fun _ => rfl
  have hprimary : ((orient swapped s).rename f).primary =
      (orient swapped s).primary.map (Entry.rename f) := rfl
  unfold sortRuns
  simp only [horient, orient_rename]
  rw [hprimary, List.length_map, QuickSort.quickSort_rename]
  rcases QuickSort.quickSort ((orient swapped s).primary.length + 1) (orient swapped s).primary
    with _ | sorted
  · rfl
  simp only [Option.map_some, Option.bind_eq_bind, Option.bind_some, runLengths_rename]
  have hstart : ({ (orient swapped s).rename f with primary := sorted.map (Entry.rename f) } : Slices σ) =
      ({ orient swapped s with primary := sorted } : Slices ρ).rename f := rfl
  rw [hstart, @Slices.onSlices_rename _ _ f
    (fun run => if 2 ≤ run.primary.length then recur ((depth + 8) / 8 * 8) false run else some run)]
  · rcases Slices.onSlices _ (runLengths sorted) { orient swapped s with primary := sorted } with _ | out
    · rfl
    · cases swapped <;> rfl
  · intro run
    have hlength : (run.rename f).primary.length = run.primary.length := List.length_map _
    rw [hlength]
    by_cases htwo : 2 ≤ run.primary.length
    · rw [if_pos htwo, if_pos htwo, h]
    · rw [if_neg htwo, if_neg htwo]
      rfl

theorem sortBuckets_rename (h : ∀ depth swapped s, recur' depth swapped (s.rename f) =
      (recur depth swapped s).map (Slices.rename f)) (depth : ℕ) (swapped : Bool) (s : Slices ρ) :
    sortBuckets recur' depth swapped (s.rename f) =
      (sortBuckets recur depth swapped s).map (Slices.rename f) := by
  have hdigit : (fun e : Entry ρ => digit depth (e.rename f)) = digit depth := rfl
  have hprimary : (s.rename f).primary = s.primary.map (Entry.rename f) := rfl
  have hwork : (s.rename f).work = s.work.map (Entry.rename f) := rfl
  unfold sortBuckets
  simp only [hprimary, hwork, BucketScatter.countDigits_map, BucketScatter.scatter_map, hdigit]
  rcases BucketScatter.scatter (digit depth) s.primary
    (BucketScatter.exclusiveSums (BucketScatter.countDigits (digit depth) s.primary) bucketSize).1
    s.work with _ | ⟨bins, work⟩
  · rfl
  simp only [Option.map_some, Option.bind_eq_bind, Option.bind_some]
  have hstart : Slices.flip { equalsToLeft := (s.rename f).equalsToLeft
                              primary := s.primary.map (Entry.rename f)
                              work := work.map (Entry.rename f) } =
      ({ s with work := work } : Slices ρ).flip.rename f := rfl
  have hloop := Slices.onSlices_rename f (h (depth + 1) !swapped) (bucketLengths bins)
    ({ s with work := work } : Slices ρ).flip
  rw [hstart, hloop]
  rcases Slices.onSlices (recur (depth + 1) !swapped) (bucketLengths bins)
    ({ s with work := work } : Slices ρ).flip with _ | out <;> rfl

/-- The sort of renamed records. -/
theorem msdRadixSort_rename (view : KeyView σ) (fuel depth : ℕ) (swapped : Bool) (s : Slices ρ) :
    msdRadixSort view fuel depth swapped (s.rename f) =
      (msdRadixSort (view.rename f) fuel depth swapped s).map (Slices.rename f) := by
  induction fuel generalizing depth swapped s with
  | zero => rfl
  | succ fuel ih =>
    have hlength : ∀ s : Slices ρ, (s.rename f).primary.length = s.primary.length :=
      fun s => List.length_map _
    have hload : (if depth % 8 = 0 then copyCache (loadWork view depth (s.rename f)) else s.rename f) =
        (if depth % 8 = 0 then copyCache (loadWork (view.rename f) depth s) else s).rename f := by
      split
      · rw [loadWork_rename, copyCache_rename]
      · rfl
    rw [msdRadixSort, msdRadixSort, hlength, isFinished_rename]
    simp only [hload, hlength]
    by_cases hnil : s.primary.length = 0
    · rw [if_pos hnil, if_pos hnil]
      rfl
    by_cases hdone : depth % 8 = 0 ∧ isFinished (view.rename f) depth s = true
    · rw [if_neg hnil, if_neg hnil, if_pos hdone, if_pos hdone, loadWork_rename, markEqual_rename]
      rfl
    rw [if_neg hnil, if_neg hnil, if_neg hdone, if_neg hdone]
    by_cases hsmall : (if depth % 8 = 0 then copyCache (loadWork (view.rename f) depth s)
        else s).primary.length < radixSortThreshold
    · rw [if_pos hsmall, if_pos hsmall]
      exact sortRuns_rename f ih _ _ _
    · rw [if_neg hsmall, if_neg hsmall]
      exact sortBuckets_rename f ih _ _ _

theorem pointers_rename (s : Slices ρ) : pointers (s.rename f) = (pointers s).map f := by
  simp [pointers, Slices.rename, Entry.rename_pointer]

end RadixSort

end M3bp
