import M3bp.RadixCalls

/-!
No record is lost, whatever the view of the keys is. The induction is on the
fuel; a call at depth `d` needs as much as the longest key goes beyond `d`.
-/
namespace M3bp.RadixSort

variable {ρ : Type} {view : KeyView ρ} {fuel depth : ℕ} {swapped : Bool} {s : Slices ρ}

/-- What is shown of every call with enough fuel. -/
def Keeps (view : KeyView ρ) (bound fuel : ℕ) : Prop :=
  ∀ depth swapped s, WellSliced s → swapped = decide (depth % 2 = 1) →
    (∀ e ∈ s.primary, view.keyLength e.pointer ≤ 8 * bound) →
    depth ≤ 8 * bound → 8 * bound < fuel + depth →
    ∃ s', msdRadixSort view fuel depth swapped s = some s' ∧ Delivers swapped s s'

theorem keys_of_perm {s t : Slices ρ} {bound : ℕ} (h : ∀ r ∈ pointers s, view.keyLength r ≤ bound)
    (hsub : ∀ r ∈ pointers t, r ∈ pointers s) :
    ∀ e ∈ t.primary, view.keyLength e.pointer ≤ bound := fun e he =>
  h e.pointer (hsub e.pointer (List.mem_map.mpr ⟨e, he, rfl⟩))

theorem pieces_subset {ks : List ℕ} {o : ℕ} {s : Slices ρ} :
    ∀ p ∈ pieces ks o s, ∀ r ∈ pointers p.2, r ∈ pointers s := by
  induction ks generalizing o s with
  | nil => simp [pieces]
  | cons k ks ih =>
    intro p hp r hr
    rcases List.mem_cons.mp hp with rfl | hp
    · obtain ⟨e, he, rfl⟩ := List.mem_map.mp hr
      exact List.mem_map.mpr ⟨e, List.mem_of_mem_take he, rfl⟩
    · obtain ⟨e, he, rfl⟩ := List.mem_map.mp (ih p hp r hr)
      exact List.mem_map.mpr ⟨e, List.mem_of_mem_drop he, rfl⟩

/-- The branch below the threshold. -/
theorem sortRuns_keeps {bound : ℕ} (ih : Keeps view bound fuel) (hs : WellSliced s)
    (hkeys : ∀ e ∈ s.primary, view.keyLength e.pointer ≤ 8 * bound)
    (hdepth : (depth + 8) / 8 * 8 ≤ 8 * bound) (hfuel : 8 * bound < fuel + (depth + 8) / 8 * 8)
    (swapped : Bool) : ∃ s', sortRuns (msdRadixSort view fuel) depth swapped s = some s' ∧
      Delivers swapped s s' := by
  obtain ⟨sorted, hsort, hperm, -⟩ :=
    QuickSort.quickSort_spec (s.primary.length + 1) s.primary (by omega)
  have hlen := hperm.length_eq
  have horient := @wellSliced_orient _ swapped _ hs
  let t : Slices ρ := { orient swapped s with primary := sorted }
  have hwell : WellSliced t := by
    refine ⟨?_, ?_⟩
    · rw [horient.work, primary_orient, hlen]
    · rw [horient.marks, primary_orient, hlen]
  have hpointers : (pointers t).Perm (pointers s) := hperm.map Entry.pointer
  have hkeys' : ∀ r ∈ pointers s, view.keyLength r ≤ 8 * bound := by
    intro r hr
    obtain ⟨e, he, rfl⟩ := List.mem_map.mp hr
    exact hkeys e he
  obtain ⟨s', hloop, hd⟩ := @onSlices_delivers _ false
    (fun run => if 2 ≤ run.primary.length then
      msdRadixSort view fuel ((depth + 8) / 8 * 8) false run else some run) _ 0 _ hwell
    (sum_runLengths sorted) (by
      intro p hp
      have hin := (pieces_inside hwell (sum_runLengths sorted).le p hp).1
      by_cases htwo : 2 ≤ p.2.primary.length
      · obtain ⟨t', hcall, hd⟩ := ih ((depth + 8) / 8 * 8) false p.2 hin
          (by simp only [Bool.false_eq, decide_eq_false_iff_not]; omega)
          (keys_of_perm hkeys' fun r hr => hpointers.mem_iff.mp (pieces_subset p hp r hr)) hdepth hfuel
        exact ⟨t', by rw [if_pos htwo]; exact hcall, hd⟩
      · exact ⟨p.2, if_neg htwo, Delivers.of_slice hin⟩)
  have hcall : sortRuns (msdRadixSort view fuel) depth swapped s =
      some (if swapped then s'.flip else s') := by
    have horient' : (if swapped then { s with work := s.primary }.flip else s) = orient swapped s := rfl
    unfold sortRuns
    simp only [horient', primary_orient, hsort, Option.bind_eq_bind, Option.bind_some]
    rw [hloop]
    rfl
  refine ⟨_, hcall, ?_, ?_, ?_, ?_⟩
  · cases swapped
    · exact hd.well
    · exact ⟨hd.well.work.symm, hd.well.marks.trans hd.well.work.symm⟩
  · cases swapped
    · exact hd.length.trans hlen
    · exact hd.well.work.trans (hd.length.trans hlen)
  · have htarget : target swapped (if swapped then s'.flip else s') = s'.primary := by
      cases swapped <;> rfl
    rw [htarget]
    exact hd.perm.trans hpointers
  · have hmark : (if swapped then s'.flip else s').equalsToLeft = s'.equalsToLeft := by
      cases swapped <;> rfl
    have hstart : t.equalsToLeft = s.equalsToLeft := by
      simp only [t, orient]
      cases swapped <;> rfl
    rw [hmark, hd.mark, hstart]

/-- The branch from the threshold on. -/
theorem sortBuckets_keeps {bound : ℕ} (ih : Keeps view bound fuel) (hs : WellSliced s)
    (hkeys : ∀ e ∈ s.primary, view.keyLength e.pointer ≤ 8 * bound)
    (hdepth : depth + 1 ≤ 8 * bound) (hfuel : 8 * bound < fuel + (depth + 1))
    (hswapped : swapped = decide (depth % 2 = 1)) :
    ∃ s', sortBuckets (msdRadixSort view fuel) depth swapped s = some s' ∧ Delivers swapped s s' := by
  obtain ⟨ends, work, hscatter, -, hperm, -, hsum⟩ := scatter_slices depth hs
  have hlen := hperm.length_eq
  let t : Slices ρ := { s with work := work }.flip
  have hwell : WellSliced t := ⟨hlen.symm, hs.marks.trans hlen.symm⟩
  have hpointers : (pointers t).Perm (pointers s) := hperm.map Entry.pointer
  have hkeys' : ∀ r ∈ pointers s, view.keyLength r ≤ 8 * bound := by
    intro r hr
    obtain ⟨e, he, rfl⟩ := List.mem_map.mp hr
    exact hkeys e he
  have hnext : (!swapped) = decide ((depth + 1) % 2 = 1) := by
    rw [hswapped]
    by_cases hodd : depth % 2 = 1
    · have heven : ¬ (depth + 1) % 2 = 1 := by omega
      simp [hodd, heven]
    · have hodd' : (depth + 1) % 2 = 1 := by omega
      simp [hodd, hodd']
  obtain ⟨s', hloop, hd⟩ := @onSlices_delivers _ (!swapped)
    (msdRadixSort view fuel (depth + 1) !swapped) _ 0 _ hwell (hsum.trans hlen.symm) (by
      intro p hp
      have hin := (pieces_inside hwell (hsum.trans hlen.symm).le p hp).1
      exact ih (depth + 1) (!swapped) p.2 hin hnext
        (keys_of_perm hkeys' fun r hr => hpointers.mem_iff.mp (pieces_subset p hp r hr)) hdepth hfuel)
  have hcall : sortBuckets (msdRadixSort view fuel) depth swapped s = some s'.flip := by
    unfold sortBuckets
    simp only [hscatter, Option.bind_eq_bind, Option.bind_some]
    rw [hloop]
    rfl
  refine ⟨_, hcall, ⟨hd.well.work.symm, hd.well.marks.trans hd.well.work.symm⟩,
    hd.well.work.trans (hd.length.trans hlen), ?_, hd.mark⟩
  have htarget : target swapped s'.flip = target (!swapped) s' := by
    cases swapped <;> rfl
  rw [htarget]
  exact hd.perm.trans hpointers

theorem keeps (view : KeyView ρ) (bound fuel : ℕ) : Keeps view bound fuel := by
  induction fuel with
  | zero =>
    intro depth swapped s _ _ _ hdepth hfuel
    omega
  | succ fuel ih =>
    intro depth swapped s hs hswapped hkeys hdepth hfuel
    by_cases hnil : s.primary.length = 0
    · refine ⟨s, by rw [msdRadixSort, if_pos hnil], hs, rfl, ?_, rfl⟩
      have hprimary : s.primary = [] := List.length_eq_zero_iff.mp hnil
      have hwork : s.work = [] := List.length_eq_zero_iff.mp (hs.work.trans hnil)
      cases swapped <;> simp [target, pointers, hprimary, hwork]
    by_cases hdone : depth % 8 = 0 ∧ isFinished view depth s = true
    · have heven : ¬ depth % 2 = 1 := by omega
      have hfalse : swapped = false := by rw [hswapped]; simp [heven]
      refine ⟨markEqual (loadWork view depth s), by rw [msdRadixSort, if_neg hnil, if_pos hdone], ?_⟩
      have hprimary : (markEqual (loadWork view depth s)).primary = s.primary := by
        unfold markEqual
        split <;> rfl
      have hwork : (markEqual (loadWork view depth s)).work.length = s.primary.length := by
        unfold markEqual
        split <;> simp [loadWork, hs.work]
      refine ⟨⟨by rw [hwork, hprimary], ?_⟩, by rw [hprimary], ?_, head?_markEqual _⟩
      · rw [length_markEqual, hprimary]
        exact hs.marks
      · rw [hfalse]
        simp [target, hprimary, pointers]
    · have hloaded := @WellSliced.loaded _ view depth _ hs
      have hlen := @length_loaded _ view depth s hs.work
      have hpointers := @pointers_loaded _ view depth _ hs
      have hkeys' : ∀ e ∈ (loaded view depth s).primary, view.keyLength e.pointer ≤ 8 * bound := by
        refine keys_of_perm (s := s) ?_ fun r hr => hpointers ▸ hr
        intro r hr
        obtain ⟨e, he, rfl⟩ := List.mem_map.mp hr
        exact hkeys e he
      -- a call that goes on is above the longest key
      have hroom : (depth + 8) / 8 * 8 ≤ 8 * bound := by
        by_cases hzero : depth % 8 = 0
        · have hunfinished : ¬ ∀ e ∈ s.primary, view.keyLength e.pointer ≤ depth := by
            intro hall
            refine hdone ⟨hzero, ?_⟩
            unfold isFinished
            rw [List.all_eq_true]
            intro e he
            have hle := hall e he
            simpa using hle
          push Not at hunfinished
          obtain ⟨e, he, hlt⟩ := hunfinished
          have hle := hkeys e he
          omega
        · omega
      have hcall : msdRadixSort view (fuel + 1) depth swapped s =
          if (loaded view depth s).primary.length < radixSortThreshold then
            sortRuns (msdRadixSort view fuel) depth swapped (loaded view depth s)
          else sortBuckets (msdRadixSort view fuel) depth swapped (loaded view depth s) := by
        rw [msdRadixSort, if_neg hnil, if_neg hdone]
        rfl
      have hstart : (loaded view depth s).equalsToLeft = s.equalsToLeft := by
        unfold loaded
        split <;> rfl
      have hresult : ∀ s', Delivers swapped (loaded view depth s) s' → Delivers swapped s s' :=
        fun s' h => ⟨h.well, h.length.trans hlen, by rw [← hpointers]; exact h.perm,
          by rw [h.mark, hstart]⟩
      rw [hcall]
      by_cases hsmall : (loaded view depth s).primary.length < radixSortThreshold
      · obtain ⟨s', hsort, hd⟩ := sortRuns_keeps ih hloaded hkeys' hroom (by omega) swapped
        exact ⟨s', by rw [if_pos hsmall]; exact hsort, hresult s' hd⟩
      · obtain ⟨s', hsort, hd⟩ := sortBuckets_keeps ih hloaded hkeys' (by omega) (by omega) hswapped
        exact ⟨s', by rw [if_neg hsmall]; exact hsort, hresult s' hd⟩

theorem exists_bound (view : KeyView ρ) (entries : List (Entry ρ)) :
    ∃ bound, ∀ e ∈ entries, view.keyLength e.pointer ≤ bound := by
  induction entries with
  | nil => exact ⟨0, by simp⟩
  | cons a entries ih =>
    obtain ⟨bound, h⟩ := ih
    refine ⟨max (view.keyLength a.pointer) bound, List.forall_mem_cons.mpr ⟨le_max_left _ _, ?_⟩⟩
    exact fun e he => (h e he).trans (le_max_right _ _)

/-- Every call at a multiple of eight, for any view of the keys, any marks and
any contents of the other arrays. -/
theorem msd_radix_sort_keeps_records (view : KeyView ρ) (depth : ℕ) (hdepth : depth % 8 = 0)
    (s : Slices ρ) (hs : WellSliced s) :
    (∃ n, ∀ fuel, n ≤ fuel → ∃ s', msdRadixSort view fuel depth false s = some s' ∧
      WellSliced s' ∧ s'.primary.length = s.primary.length ∧
      (pointers s').Perm (pointers s) ∧ s'.equalsToLeft.head? = s.equalsToLeft.head?) ∧
    ∀ c, Makes view ⟨depth, false, 0, s⟩ c →
      WellSliced c.slices ∧ (c.depth % 8 = 0 → c.swapped = false) ∧
      ∀ c' ∈ subCalls view c, c'.offset + c'.slices.primary.length ≤ c.slices.primary.length := by
  have hswapped : false = decide (depth % 2 = 1) := by
    have heven : ¬ depth % 2 = 1 := by omega
    simp [heven]
  constructor
  · obtain ⟨bound, hbound⟩ := exists_bound view s.primary
    refine ⟨8 * (bound + depth) + 1, fun fuel hfuel => ?_⟩
    obtain ⟨s', hrun, hd⟩ := keeps view (bound + depth) fuel depth false s hs hswapped
      (fun e he => (hbound e he).trans (by omega)) (by omega) (by omega)
    exact ⟨s', hrun, hd.well, hd.length, hd.perm, hd.mark⟩
  · intro c hmakes
    obtain ⟨hwell, hs'⟩ := makes_inside hs hswapped hmakes
    refine ⟨hwell, fun hzero => ?_, fun c' hc' => (subCalls_inside hwell hs' hc').2.2⟩
    have heven : ¬ c.depth % 2 = 1 := by omega
    rw [hs']
    simp [heven]

/-- Two records with equal keys, where every window shows the same block. -/
def twoEqual : Slices ℕ :=
  { primary := [{ pointer := 9, cache := 0 }, { pointer := 9, cache := 0 }]
    work := [{ pointer := 0, cache := 0 }, { pointer := 0, cache := 0 }]
    equalsToLeft := [false, false] }

theorem msd_radix_sort_keeps_records_twoEqual :
    ∃ n, ∀ fuel, n ≤ fuel → ∃ s', msdRadixSort
      { keyLength := fun length => length, block := fun _ _ => 7 } fuel 0 false twoEqual = some s' ∧
      WellSliced s' ∧ s'.primary.length = 2 ∧
      (pointers s').Perm [9, 9] ∧ s'.equalsToLeft.head? = some false :=
  (msd_radix_sort_keeps_records { keyLength := fun length => length, block := fun _ _ => 7 } 0 rfl
    twoEqual ⟨rfl, rfl⟩).1

end M3bp.RadixSort
