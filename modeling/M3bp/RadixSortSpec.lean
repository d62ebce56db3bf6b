import M3bp.RadixSortOrder

/-!
The sort arranges its slices as `windows` describes. A call at a multiple of
eight gets a class of records that agree so far; a call in between gets entries
that hold the block of their record and agree in its upper bytes. The induction
is on the fuel, which is spent on the depth.
-/
namespace M3bp.RadixSort

open MarkedSort

variable {ρ : Type} {view : KeyView ρ} {fuel m j : ℕ}

/-- The entries of a call at depth `8 * m + j` that has its caches filled. -/
structure Active (view : KeyView ρ) (m j : ℕ) (entries : List (Entry ρ)) : Prop where
  cache : ∀ e ∈ entries, e.cache = view.block e.pointer (8 * m)
  agree : ∀ e ∈ entries, ∀ e' ∈ entries,
    e.cache.toNat / 256 ^ (8 - j) = e'.cache.toNat / 256 ^ (8 - j)

theorem Active.perm {entries entries' : List (Entry ρ)} (h : Active view m j entries)
    (hperm : entries'.Perm entries) : Active view m j entries' :=
  ⟨fun e he => h.cache e (hperm.mem_iff.mp he),
    fun e he e' he' => h.agree e (hperm.mem_iff.mp he) e' (hperm.mem_iff.mp he')⟩

/-- What is shown of the calls at multiples of eight. -/
def SortsClasses (view : KeyView ρ) (bound fuel : ℕ) : Prop :=
  ∀ m s, m ≤ bound → 8 * bound < fuel + 8 * m → Fresh s →
    (∀ e ∈ s.primary, view.keyLength e.pointer ≤ 8 * bound) →
    (∀ e ∈ s.primary, ∀ e' ∈ s.primary, e.cache = e'.cache) →
    ∃ s', msdRadixSort view fuel (8 * m) false s = some s' ∧
      SortsTo (windows view (bound - m) m (pointers s)) false s s'

/-- What is shown of the calls in between. -/
def SortsActive (view : KeyView ρ) (bound fuel : ℕ) : Prop :=
  ∀ m j s, m < bound → 0 < j → j < 8 → 8 * bound < fuel + (8 * m + j) → Fresh s →
    (∀ e ∈ s.primary, view.keyLength e.pointer ≤ 8 * bound) → Active view m j s.primary →
    ∃ s', msdRadixSort view fuel (8 * m + j) (decide (j % 2 = 1)) s = some s' ∧
      SortsTo (activeWindows view (bound - m - 1) m (pointers s)) (decide (j % 2 = 1)) s s'

/-! The branch below the threshold. -/

/-- A list that is sorted by the caches falls into its runs. -/
theorem exists_runs (xs : List (Entry ρ)) (h : xs.Pairwise fun a b => a.cache ≤ b.cache) :
    ∃ runs : List (List (Entry ρ)), runs.flatten = xs ∧ runs.map List.length = runLengths xs ∧
      (∀ c ∈ runs, c ≠ [] ∧ ∀ e ∈ c, ∀ e' ∈ c, e.cache = e'.cache) ∧
      runs.Pairwise fun c c' => ∀ e ∈ c, ∀ e' ∈ c', e.cache < e'.cache := by
  induction xs with
  | nil => exact ⟨[], rfl, rfl, by simp, List.Pairwise.nil⟩
  | cons e xs ih =>
    obtain ⟨hle, hxs⟩ := List.pairwise_cons.mp h
    obtain ⟨runs, hflatten, hlengths, hrun, hlt⟩ := ih hxs
    cases xs with
    | nil =>
      refine ⟨[[e]], rfl, rfl, ?_, List.pairwise_singleton _ _⟩
      simp
    | cons e' rest =>
      cases runs with
      | nil => simp at hflatten
      | cons c cs =>
        obtain ⟨hne, hequal⟩ := hrun c List.mem_cons_self
        obtain ⟨e'', c', rfl⟩ := List.exists_cons_of_ne_nil hne
        have hhead : e'' = e' := by
          simp only [List.flatten_cons, List.cons_append, List.cons.injEq] at hflatten
          exact hflatten.1
        subst hhead
        rw [List.map_cons] at hlengths
        obtain ⟨hclt, hcs⟩ := List.pairwise_cons.mp hlt
        have hrest : ∀ x ∈ cs, x ≠ [] ∧ ∀ e ∈ x, ∀ e' ∈ x, e.cache = e'.cache :=
          fun x hx => hrun x (List.mem_cons_of_mem _ hx)
        by_cases hcache : e.cache = e''.cache
        · have hall : ∀ x ∈ e :: e'' :: c', x.cache = e''.cache := by
            intro x hx
            rcases List.mem_cons.mp hx with rfl | hx
            · exact hcache
            · exact hequal x hx e'' List.mem_cons_self
          refine ⟨(e :: e'' :: c') :: cs, by simpa using hflatten, ?_, ?_, ?_⟩
          · simp [runLengths, ← hlengths, hcache]
          · intro x hx
            rcases List.mem_cons.mp hx with rfl | hx
            · exact ⟨List.cons_ne_nil _ _, fun a ha b hb => by rw [hall a ha, hall b hb]⟩
            · exact hrest x hx
          · refine List.pairwise_cons.mpr ⟨fun x hx a ha b hb => ?_, hcs⟩
            rw [hall a ha]
            exact hclt x hx e'' List.mem_cons_self b hb
        · have hlt' : e.cache < e''.cache := by
            have hle' := hle e'' List.mem_cons_self
            grind
          refine ⟨[e] :: (e'' :: c') :: cs, by simpa using hflatten, ?_, ?_, ?_⟩
          · simp [runLengths, ← hlengths, hcache]
          · intro x hx
            rcases List.mem_cons.mp hx with rfl | hx
            · simp
            · exact hrun x hx
          · refine List.pairwise_cons.mpr ⟨fun x hx a ha b hb => ?_, hlt⟩
            obtain rfl := List.mem_singleton.mp ha
            rcases List.mem_cons.mp hx with rfl | hx
            · rw [hequal b hb e'' List.mem_cons_self]
              exact hlt'
            · have hb' := hclt x hx e'' List.mem_cons_self b hb
              grind

theorem runs_disjoint {runs : List (List (Entry ρ))}
    (hlt : runs.Pairwise fun c c' => ∀ e ∈ c, ∀ e' ∈ c', e.cache < e'.cache)
    {c c' : List (Entry ρ)} (hc : c ∈ runs) (hc' : c' ∈ runs) (hne : c ≠ c') :
    ∀ e ∈ c, ∀ e' ∈ c', e.cache ≠ e'.cache := by
  let R : List (Entry ρ) → List (Entry ρ) → Prop :=
    fun c c' => ∀ e ∈ c, ∀ e' ∈ c', e.cache ≠ e'.cache
  have hsymm : Std.Symm R := ⟨fun c c' h e he e' he' => (h e' he' e he).symm⟩
  have hdiffer : runs.Pairwise R := hlt.imp fun {c c'} h e he e' he' => by
    have hlt := h e he e' he'
    grind
  exact hdiffer.forall hc hc' hne

/-- The records of a run are a class of block `m`. -/
theorem class_of_run {entries sorted : List (Entry ρ)} {runs : List (List (Entry ρ))}
    (hactive : Active view m j entries) (hperm : sorted.Perm entries)
    (hflatten : runs.flatten = sorted)
    (hlt : runs.Pairwise fun c c' => ∀ e ∈ c, ∀ e' ∈ c', e.cache < e'.cache)
    {c : List (Entry ρ)} (hc : c ∈ runs) (hequal : ∀ e ∈ c, ∀ e' ∈ c, e.cache = e'.cache)
    {r : ρ} (hr : r ∈ c.map Entry.pointer) (x : ρ) :
    x ∈ c.map Entry.pointer ↔
      x ∈ entries.map Entry.pointer ∧ view.block x (8 * m) = view.block r (8 * m) := by
  obtain ⟨e, he, rfl⟩ := List.mem_map.mp hr
  have hmem : ∀ a, a ∈ entries ↔ ∃ c ∈ runs, a ∈ c := by
    intro a
    rw [← hperm.mem_iff, ← hflatten, List.mem_flatten]
  have hentry : ∀ a ∈ c, a ∈ entries := fun a ha => (hmem a).mpr ⟨c, hc, ha⟩
  rw [← hactive.cache e (hentry e he)]
  constructor
  · intro hx
    obtain ⟨a, ha, rfl⟩ := List.mem_map.mp hx
    refine ⟨List.mem_map.mpr ⟨a, hentry a ha, rfl⟩, ?_⟩
    rw [← hactive.cache a (hentry a ha), hequal a ha e he]
  · rintro ⟨hx, hblock⟩
    obtain ⟨a, ha, rfl⟩ := List.mem_map.mp hx
    obtain ⟨c', hc', ha'⟩ := (hmem a).mp ha
    have hcache : a.cache = e.cache := by rw [hactive.cache a ha, hblock]
    have hsame : c' = c := by
      by_contra hne
      exact runs_disjoint hlt hc' hc hne a ha' e he hcache
    rw [← hsame]
    exact List.mem_map.mpr ⟨a, ha', rfl⟩

/-- Only the records are asked for, not their order, and the weight may come
from the slices before an exchange of the sides. -/
theorem SortsTo.of_perm {w : ρ → List ℕ} {s t s' : Slices ρ} (swapped : Bool)
    (h : SortsTo w false t s') (hperm : t.primary.Perm s.primary) :
    SortsTo w swapped s (if swapped then s'.flip else s') := by
  have hlen := hperm.length_eq
  have hptr : (pointers t).Perm (pointers s) := hperm.map _
  have htarget : target swapped (if swapped then s'.flip else s') = target false s' := by
    cases swapped <;> rfl
  refine ⟨?_, ?_, ?_⟩
  · cases swapped <;> simp [Slices.flip, h.primary, h.work, hlen]
  · cases swapped <;> simp [Slices.flip, h.primary, h.work, hlen]
  · rw [htarget]
    have hmarks : (if swapped then s'.flip else s').equalsToLeft = s'.equalsToLeft := by
      cases swapped <;> rfl
    rw [hmarks]
    exact ⟨h.sorted.perm.trans hptr, h.sorted.pairwise, h.sorted.marks_eq⟩

theorem sortRuns_spec {bound : ℕ} (ih : SortsClasses view bound fuel) (hm : m < bound)
    (hj : j < 8) (hfuel : 8 * bound < fuel + 8 * (m + 1)) (swapped : Bool) {s : Slices ρ}
    (hs : Fresh s) (hkeys : ∀ e ∈ s.primary, view.keyLength e.pointer ≤ 8 * bound)
    (hactive : Active view m j s.primary) :
    ∃ s', sortRuns (msdRadixSort view fuel) (8 * m + j) swapped s = some s' ∧
      SortsTo (activeWindows view (bound - m - 1) m (pointers s)) swapped s s' := by
  let s₁ := if swapped then { s with work := s.primary }.flip else s
  have hprimary : s₁.primary = s.primary := by cases swapped <;> rfl
  have hwork : s₁.work.length = s.primary.length := by cases swapped <;> simp [s₁, Slices.flip, hs.work]
  have hmarks : s₁.equalsToLeft = s.equalsToLeft := by cases swapped <;> rfl
  obtain ⟨sorted, hsort, hperm, hle⟩ :=
    QuickSort.quickSort_spec (s.primary.length + 1) s.primary (by omega)
  obtain ⟨runs, hflatten, hlengths, hrun, hlt⟩ := exists_runs sorted hle
  have hlen := hperm.length_eq
  have hfresh : Fresh { s₁ with primary := sorted } :=
    ⟨by simp [hwork, hlen], by simp [hmarks, hs.marks, hlen]⟩
  have hnext : (8 * m + j + 8) / 8 * 8 = 8 * (m + 1) := by omega
  let recur := fun run : Slices ρ => if 2 ≤ run.primary.length then
    msdRadixSort view fuel ((8 * m + j + 8) / 8 * 8) false run else some run
  have hrecur : ∀ c ∈ runs, ∀ t, Fresh t → t.primary = c → ∃ t', recur t = some t' ∧
      SortsTo (activeWindows view (bound - m - 1) m (pointers s)) false t t' := by
    intro c hc t ht htc
    obtain ⟨hne, hequal⟩ := hrun c hc
    obtain ⟨e, he⟩ := List.exists_mem_of_ne_nil c hne
    by_cases htwo : 2 ≤ t.primary.length
    · have hkeys' : ∀ a ∈ t.primary, view.keyLength a.pointer ≤ 8 * bound := by
        intro a ha
        refine hkeys a (hperm.mem_iff.mp ?_)
        rw [← hflatten]
        exact List.mem_flatten.mpr ⟨c, hc, htc ▸ ha⟩
      obtain ⟨t', hcall, hsorted⟩ := ih (m + 1) t (by omega) (by omega) ht hkeys'
        (by rwa [htc])
      have hclass : ∀ r ∈ pointers t, ∀ x,
          x ∈ pointers t ↔ x ∈ pointers s ∧ view.block x (8 * m) = view.block r (8 * m) := by
        intro r hr x
        rw [pointers, htc] at hr ⊢
        exact class_of_run hactive hperm hflatten hlt hc hequal hr x
      refine ⟨t', ?_, hsorted.of_class hclass⟩
      rw [← hcall, ← hnext]
      exact if_pos htwo
    · have hone : t.primary.length = 1 := by
        have hpos : 0 < t.primary.length := by rw [htc]; exact List.length_pos_iff.mpr hne
        omega
      exact ⟨t, if_neg htwo, .of_single ht hone _⟩
  have hincreasing : runs.Pairwise fun c c' => ∀ e ∈ c, ∀ e' ∈ c',
      activeWindows view (bound - m - 1) m (pointers s) e.pointer <
        activeWindows view (bound - m - 1) m (pointers s) e'.pointer := by
    refine hlt.imp_of_mem fun {c c'} hc hc' h e he e' he' => activeWindows_lt ?_
    have hmem : ∀ c ∈ runs, ∀ e ∈ c, e ∈ s.primary := by
      intro c hc e he
      rw [← hperm.mem_iff, ← hflatten]
      exact List.mem_flatten.mpr ⟨c, hc, he⟩
    rw [← hactive.cache e (hmem c hc e he), ← hactive.cache e' (hmem c' hc' e' he')]
    exact h e he e' he'
  obtain ⟨s', hloop, hsorted⟩ := onSlices_spec _ false runs { s₁ with primary := sorted } hfresh
    hflatten.symm hrecur hincreasing
  refine ⟨if swapped then s'.flip else s', ?_, hsorted.of_perm swapped hperm⟩
  rw [hlengths] at hloop
  change (do
    let sorted ← QuickSort.quickSort (s₁.primary.length + 1) s₁.primary
    let s ← Slices.onSlices recur (runLengths sorted) { s₁ with primary := sorted }
    some (if swapped then s.flip else s)) = _
  rw [hprimary, hsort]
  simp only [Option.bind_eq_bind, Option.bind_some, hloop]

/-! The branch from the threshold on. -/

theorem digit_eq (hj : j < 8) (e : Entry ρ) :
    digit (8 * m + j) e = e.cache.toNat / 256 ^ (7 - j) % 256 := by
  have hmod : (8 * m + j) % 8 = j := by omega
  have hshift : (UInt64.ofNat ((7 - j) * 8)).toNat % 64 = 8 * (7 - j) := by
    rw [UInt64.toNat_ofNat']
    omega
  have hmask : (255 : UInt64).toNat = 2 ^ 8 - 1 := rfl
  rw [digit, hmod, UInt64.toNat_and, UInt64.toNat_shiftRight, hshift, hmask,
    Nat.and_two_pow_sub_one_eq_mod, Nat.shiftRight_eq_div_pow, Nat.pow_mul]

theorem digit_lt (hj : j < 8) (e : Entry ρ) : digit (8 * m + j) e < bucketSize := by
  rw [digit_eq hj]
  exact Nat.mod_lt _ (by decide)

theorem div_pow_eq (hj : j < 8) (e : Entry ρ) :
    e.cache.toNat / 256 ^ (7 - j) = e.cache.toNat / 256 ^ (8 - j) * 256 + digit (8 * m + j) e := by
  have hpow : 256 ^ (8 - j) = 256 ^ (7 - j) * 256 := by
    rw [← Nat.pow_succ]
    congr 1
    omega
  rw [digit_eq hj, hpow, ← Nat.div_div_eq_div_mul, Nat.mul_comm, Nat.div_add_mod]

/-- With the upper bytes equal, the digits order the caches. -/
theorem cache_lt_of_digit_lt (hj : j < 8) {e e' : Entry ρ}
    (hagree : e.cache.toNat / 256 ^ (8 - j) = e'.cache.toNat / 256 ^ (8 - j))
    (h : digit (8 * m + j) e < digit (8 * m + j) e') : e.cache < e'.cache := by
  refine UInt64.lt_iff_toNat_lt.mpr (Nat.lt_of_div_lt_div (c := 256 ^ (7 - j)) ?_)
  rw [div_pow_eq (m := m) hj, div_pow_eq (m := m) hj, hagree]
  omega

/-- The entries of a bucket agree in one more byte. -/
theorem Active.bucket {entries : List (Entry ρ)} (h : Active view m j entries) (hj : j < 8) (d : ℕ) :
    Active view m (j + 1) (entries.filter fun e => digit (8 * m + j) e = d) := by
  refine ⟨fun e he => h.cache e (List.mem_filter.mp he).1, fun e he e' he' => ?_⟩
  obtain ⟨hmem, hd⟩ := List.mem_filter.mp he
  obtain ⟨hmem', hd'⟩ := List.mem_filter.mp he'
  have hsub : 8 - (j + 1) = 7 - j := by omega
  simp only [decide_eq_true_eq] at hd hd'
  rw [hsub, div_pow_eq (m := m) hj, div_pow_eq (m := m) hj, hd, hd', h.agree e hmem e' hmem']

theorem bucketLengths_eq {d : Entry ρ → ℕ} {entries : List (Entry ρ)} {ends : ℕ → ℕ}
    (h : ∀ i < bucketSize, ends i = BucketScatter.startOf d entries (i + 1)) :
    bucketLengths ends = (BucketScatter.buckets d bucketSize entries).map List.length := by
  unfold bucketLengths BucketScatter.buckets
  rw [List.map_map]
  refine List.map_congr_left fun i hi => ?_
  have hi' : i < bucketSize := by simpa using hi
  have hcount : (entries.filter fun e => d e = i).length = BucketScatter.countOf d entries i := by
    rw [BucketScatter.countOf, List.countP_eq_length_filter]
  rw [Function.comp_apply, hcount, h i hi', BucketScatter.startOf_succ]
  by_cases hzero : i = 0
  · simp [hzero, BucketScatter.startOf]
  · have hpred := h (i - 1) (by omega)
    rw [show i - 1 + 1 = i by omega] at hpred
    simp [hzero, hpred]

theorem sortBuckets_spec {bound : ℕ} (ih : SortsClasses view bound fuel)
    (ih' : SortsActive view bound fuel) (hm : m < bound) (hj : j < 8)
    (hfuel : 8 * bound < fuel + (8 * m + j + 1)) {s : Slices ρ} (hs : Fresh s)
    (hkeys : ∀ e ∈ s.primary, view.keyLength e.pointer ≤ 8 * bound)
    (hactive : Active view m j s.primary) :
    ∃ s', sortBuckets (msdRadixSort view fuel) (8 * m + j) (decide (j % 2 = 1)) s = some s' ∧
      SortsTo (activeWindows view (bound - m - 1) m (pointers s)) (decide (j % 2 = 1)) s s' := by
  let d : Entry ρ → ℕ := digit (8 * m + j)
  let chunks := BucketScatter.buckets d bucketSize s.primary
  have hdigit : ∀ e ∈ s.primary, d e < bucketSize := fun e _ => digit_lt hj e
  obtain ⟨ends, hscatter, hends⟩ := BucketScatter.scatter_spec hdigit hs.work
  have hperm : chunks.flatten.Perm s.primary := BucketScatter.flatten_buckets_perm hdigit
  have hlen := hperm.length_eq
  let s₁ := Slices.flip { s with work := chunks.flatten }
  have hfresh : Fresh s₁ := ⟨hlen.symm, by simp [s₁, Slices.flip, hs.marks, hlen]⟩
  have hrecur : ∀ c ∈ chunks, ∀ t, Fresh t → t.primary = c →
      ∃ t', msdRadixSort view fuel (8 * m + j + 1) (!decide (j % 2 = 1)) t = some t' ∧
        SortsTo (activeWindows view (bound - m - 1) m (pointers s)) (!decide (j % 2 = 1)) t t' := by
    intro c hc t ht htc
    obtain ⟨i, -, hi⟩ := List.mem_map.mp hc
    have hkeys' : ∀ a ∈ t.primary, view.keyLength a.pointer ≤ 8 * bound := by
      intro a ha
      rw [htc, ← hi] at ha
      exact hkeys a (List.mem_filter.mp ha).1
    have hbucket : Active view m (j + 1) t.primary := by
      rw [htc, ← hi]
      exact hactive.bucket hj i
    -- a record with the block of one of the bucket is in the bucket
    have hmem : ∀ r ∈ pointers t, ∀ x, view.block x (8 * m) = view.block r (8 * m) →
        (x ∈ pointers t ↔ x ∈ pointers s) := by
      intro r hr x hblock
      rw [pointers, htc, ← hi] at hr ⊢
      obtain ⟨e, he, rfl⟩ := List.mem_map.mp hr
      obtain ⟨hes, hed⟩ := List.mem_filter.mp he
      constructor
      · intro hx
        obtain ⟨a, ha, rfl⟩ := List.mem_map.mp hx
        exact List.mem_map.mpr ⟨a, (List.mem_filter.mp ha).1, rfl⟩
      · intro hx
        obtain ⟨a, ha, rfl⟩ := List.mem_map.mp hx
        have hcache : a.cache = e.cache := by
          rw [hactive.cache a ha, hactive.cache e hes, hblock]
        refine List.mem_map.mpr ⟨a, List.mem_filter.mpr ⟨ha, ?_⟩, rfl⟩
        have hda : d a = d e := by simp only [d, digit, hcache]
        rwa [hda]
    rcases Nat.lt_or_ge (j + 1) 8 with hlt | hge
    · have hparity : (!decide (j % 2 = 1)) = decide ((j + 1) % 2 = 1) := by
        rw [← decide_not, decide_eq_decide]
        omega
      obtain ⟨t', hcall, hsorted⟩ := ih' m (j + 1) t hm (by omega) hlt (by omega) ht hkeys' hbucket
      rw [hparity]
      refine ⟨t', hcall, hsorted.congr fun x hx y hy => ?_⟩
      rw [activeWindows_congr (hmem x hx), activeWindows_congr (hmem y hy)]
    · obtain rfl : j = 7 := by omega
      have hequal : ∀ e ∈ t.primary, ∀ e' ∈ t.primary, e.cache = e'.cache := by
        intro e he e' he'
        have hagree := hbucket.agree e he e' he'
        simpa using UInt64.toNat_inj.mp (by simpa using hagree)
      obtain ⟨t', hcall, hsorted⟩ := ih (m + 1) t (by omega) (by omega) ht hkeys' hequal
      refine ⟨t', hcall, hsorted.of_class fun r hr x => ?_⟩
      constructor
      · intro hx
        obtain ⟨a, ha, rfl⟩ := List.mem_map.mp hx
        obtain ⟨e, he, rfl⟩ := List.mem_map.mp hr
        have hblock : view.block a.pointer (8 * m) = view.block e.pointer (8 * m) := by
          rw [← hbucket.cache a ha, ← hbucket.cache e he, hequal a ha e he]
        exact ⟨(hmem _ hr _ hblock).mp hx, hblock⟩
      · rintro ⟨hx, hblock⟩
        exact (hmem r hr x hblock).mpr hx
  have hincreasing : chunks.Pairwise fun c c' => ∀ e ∈ c, ∀ e' ∈ c',
      activeWindows view (bound - m - 1) m (pointers s) e.pointer <
        activeWindows view (bound - m - 1) m (pointers s) e'.pointer := by
    refine List.pairwise_map.mpr (List.pairwise_lt_range.imp ?_)
    intro i i' hii e he e' he'
    obtain ⟨hes, hed⟩ := List.mem_filter.mp he
    obtain ⟨hes', hed'⟩ := List.mem_filter.mp he'
    simp only [decide_eq_true_eq] at hed hed'
    refine activeWindows_lt ?_
    rw [← hactive.cache e hes, ← hactive.cache e' hes']
    refine cache_lt_of_digit_lt (m := m) hj (hactive.agree e hes e' hes') ?_
    change d e < d e'
    omega
  obtain ⟨s', hloop, hsorted⟩ := onSlices_spec _ _ chunks s₁ hfresh rfl hrecur hincreasing
  refine ⟨s'.flip, ?_, ?_, ?_, ?_⟩
  · simp only [sortBuckets, d, hscatter, Option.bind_eq_bind, Option.bind_some]
    rw [bucketLengths_eq hends]
    change (Slices.onSlices _ (chunks.map List.length) s₁).bind _ = _
    rw [hloop, Option.bind_some]
  · exact hsorted.work.trans hlen
  · exact hsorted.primary.trans hlen
  · have htarget : target (decide (j % 2 = 1)) s'.flip = target (!decide (j % 2 = 1)) s' := by
      cases decide (j % 2 = 1) <;> rfl
    rw [htarget]
    exact ⟨hsorted.sorted.perm.trans (hperm.map _), hsorted.sorted.pairwise,
      hsorted.sorted.marks_eq⟩

/-! The calls themselves. -/

theorem copyCache_loadWork (depth : ℕ) {s : Slices ρ} (hs : Fresh s) :
    (copyCache (loadWork view depth s)).primary =
      s.primary.map fun e => { e with cache := view.block e.pointer depth } := by
  have hwork := hs.work
  refine List.ext_getElem ?_ fun i h h' => ?_
  · simp [copyCache, loadWork, hwork]
  · simp [copyCache, loadWork]

theorem fresh_copyCache (depth : ℕ) {s : Slices ρ} (hs : Fresh s) :
    Fresh (copyCache (loadWork view depth s)) ∧
    pointers (copyCache (loadWork view depth s)) = pointers s := by
  have hprimary := @copyCache_loadWork _ view depth _ hs
  refine ⟨⟨?_, ?_⟩, ?_⟩
  · rw [hprimary]
    simp [copyCache, loadWork, hs.work]
  · rw [hprimary]
    simp [copyCache, loadWork, hs.marks]
  · simp [pointers, hprimary]

theorem markRest_equal {β : Type} [DecidableEq β] {w : ρ → β} (hw : ∀ r r', w r = w r')
    {e : Entry ρ} {rest : List (Entry ρ)} (h : ∀ a ∈ rest, a.cache = e.cache) :
    markRest e rest (List.replicate rest.length false) =
      tailMarks w e.pointer (rest.map Entry.pointer) := by
  induction rest generalizing e with
  | nil => rfl
  | cons a rest ih =>
    have ha : a.cache = e.cache := h a List.mem_cons_self
    have hrest : ∀ b ∈ rest, b.cache = a.cache := by
      intro b hb
      rw [h b (List.mem_cons_of_mem a hb), ha]
    simp [markRest, tailMarks, List.replicate_succ, ha, ih hrest, hw a.pointer e.pointer]

/-- A finished slice stays as it is and is marked as one group. -/
theorem markEqual_spec (depth : ℕ) {s : Slices ρ} (hs : Fresh s) (hne : s.primary ≠ [])
    (hequal : ∀ e ∈ s.primary, ∀ e' ∈ s.primary, e.cache = e'.cache) {w : ρ → List ℕ}
    (hw : ∀ r, w r = []) : SortsTo w false s (markEqual (loadWork view depth s)) := by
  obtain ⟨e, rest, hprimary⟩ := List.exists_cons_of_ne_nil hne
  have hmarks : s.equalsToLeft = false :: List.replicate rest.length false := by
    rw [hs.marks, hprimary, List.length_cons, List.replicate_succ]
  have hmark : markEqual (loadWork view depth s) =
      { loadWork view depth s with
        equalsToLeft := false :: markRest e rest (List.replicate rest.length false) } := by
    simp only [markEqual, loadWork, hprimary, hmarks]
  have hrest : ∀ a ∈ rest, a.cache = e.cache := by
    intro a ha
    rw [hprimary] at hequal
    exact hequal a (List.mem_cons_of_mem e ha) e List.mem_cons_self
  have hsame : ∀ r r', w r = w r' := fun r r' => by rw [hw r, hw r']
  refine ⟨?_, ?_, ?_, ?_, ?_⟩
  · rw [hmark]
    rfl
  · rw [hmark]
    simp [loadWork, hs.work]
  · rw [hmark]
    exact List.Perm.refl _
  · rw [hmark]
    exact List.pairwise_of_forall fun r r' => (hsame r r').le
  · rw [hmark]
    simp only [target, loadWork, hprimary, Bool.false_eq_true, if_false, List.map_cons, leftMarks]
    convert congrArg (List.cons false) (markRest_equal hsame hrest)

theorem sortsClasses_succ {bound : ℕ} (ih : SortsClasses view bound fuel)
    (ih' : SortsActive view bound fuel) : SortsClasses view bound (fuel + 1) := by
  intro m s hm hfuel hs hkeys hequal
  have hdepth : 8 * m % 8 = 0 := by omega
  by_cases hnil : s.primary.length = 0
  · exact ⟨s, by simp [msdRadixSort, hnil], .of_nil hs (List.length_eq_zero_iff.mp hnil) _ _⟩
  have hne : s.primary ≠ [] := fun h => hnil (by simp [h])
  have hfinished : isFinished view (8 * m) s = true ↔ ∀ r ∈ pointers s, view.keyLength r ≤ 8 * m := by
    simp [isFinished, pointers]
  by_cases hall : ∀ r ∈ pointers s, view.keyLength r ≤ 8 * m
  · refine ⟨markEqual (loadWork view (8 * m) s), ?_,
      markEqual_spec (8 * m) hs hne hequal (windows_finished hall)⟩
    rw [msdRadixSort, if_neg hnil, if_pos ⟨hdepth, hfinished.mpr hall⟩]
  · have hlt : m < bound := by
      by_contra hge
      refine hall fun r hr => ?_
      obtain ⟨e, he, rfl⟩ := List.mem_map.mp hr
      have hkey := hkeys e he
      omega
    obtain ⟨hfresh, hptr⟩ := @fresh_copyCache _ view (8 * m) _ hs
    have hprimary := @copyCache_loadWork _ view (8 * m) _ hs
    set s₁ := copyCache (loadWork view (8 * m) s)
    have hlen : s₁.primary.length = s.primary.length := by simp [hprimary]
    have hkeys₁ : ∀ e ∈ s₁.primary, view.keyLength e.pointer ≤ 8 * bound := by
      intro e he
      rw [hprimary] at he
      obtain ⟨a, ha, rfl⟩ := List.mem_map.mp he
      exact hkeys a ha
    have hactive : Active view m 0 s₁.primary := by
      refine ⟨fun e he => ?_, fun e _ e' _ => ?_⟩
      · rw [hprimary] at he
        obtain ⟨a, -, rfl⟩ := List.mem_map.mp he
        rfl
      · have hzero : ∀ x : UInt64, x.toNat / 256 ^ (8 - 0) = 0 := fun x =>
          Nat.div_eq_of_lt (lt_of_lt_of_eq x.toNat_lt (by decide))
        rw [hzero, hzero]
    have hwindows : windows view (bound - m) m (pointers s) =
        activeWindows view (bound - m - 1) m (pointers s₁) := by
      funext r
      have hsub : bound - m = bound - m - 1 + 1 := by omega
      conv_lhs => rw [hsub]
      rw [windows_active hall, hptr]
    have hcall : msdRadixSort view (fuel + 1) (8 * m) false s =
        if s₁.primary.length < radixSortThreshold then
          sortRuns (msdRadixSort view fuel) (8 * m) false s₁
        else sortBuckets (msdRadixSort view fuel) (8 * m) false s₁ := by
      rw [msdRadixSort, if_neg hnil, if_neg fun h => hall (hfinished.mp h.2)]
      simp only [hdepth, if_true]
      rfl
    have hresult : ∀ s', SortsTo (activeWindows view (bound - m - 1) m (pointers s₁)) false s₁ s' →
        SortsTo (activeWindows view (bound - m - 1) m (pointers s₁)) false s s' := fun s' h =>
      ⟨h.primary.trans hlen, h.work.trans hlen, hptr ▸ h.sorted⟩
    rw [hcall, hwindows]
    by_cases hsmall : s₁.primary.length < radixSortThreshold
    · obtain ⟨s', hsort, hsorted⟩ :=
        sortRuns_spec ih hlt (by omega) (by omega) false hfresh hkeys₁ hactive
      exact ⟨s', by rw [if_pos hsmall]; exact hsort, hresult s' hsorted⟩
    · obtain ⟨s', hsort, hsorted⟩ :=
        sortBuckets_spec ih ih' hlt (by omega) (by omega) hfresh hkeys₁ hactive
      exact ⟨s', by rw [if_neg hsmall]; exact hsort, hresult s' hsorted⟩

theorem sortsActive_succ {bound : ℕ} (ih : SortsClasses view bound fuel)
    (ih' : SortsActive view bound fuel) : SortsActive view bound (fuel + 1) := by
  intro m j s hm hpos hj hfuel hs hkeys hactive
  have hdepth : ¬ (8 * m + j) % 8 = 0 := by omega
  by_cases hnil : s.primary.length = 0
  · exact ⟨s, by simp [msdRadixSort, hnil], .of_nil hs (List.length_eq_zero_iff.mp hnil) _ _⟩
  · by_cases hsmall : s.primary.length < radixSortThreshold
    · obtain ⟨s', hcall, hsorted⟩ := sortRuns_spec ih hm hj (by omega) (decide (j % 2 = 1)) hs hkeys hactive
      refine ⟨s', ?_, hsorted⟩
      rw [msdRadixSort, if_neg hnil, if_neg (fun h => hdepth h.1)]
      simp only [hdepth, if_false, hsmall, if_true, hcall]
    · obtain ⟨s', hcall, hsorted⟩ := sortBuckets_spec ih ih' hm hj (by omega) hs hkeys hactive
      refine ⟨s', ?_, hsorted⟩
      rw [msdRadixSort, if_neg hnil, if_neg (fun h => hdepth h.1)]
      simp only [hdepth, if_false, hsmall, hcall]

theorem sorts (view : KeyView ρ) (bound fuel : ℕ) :
    SortsClasses view bound fuel ∧ SortsActive view bound fuel := by
  induction fuel with
  | zero =>
    constructor
    · intro m s hm hfuel
      omega
    · intro m j s hm hpos hj hfuel
      omega
  | succ fuel ih => exact ⟨sortsClasses_succ ih.1 ih.2, sortsActive_succ ih.1 ih.2⟩

/-- The call that `sort_records` makes, on zeroed marks and caches. -/
theorem msdRadixSort_spec {bound : ℕ} {s : Slices ρ} (hs : Fresh s)
    (hkeys : ∀ r ∈ pointers s, view.keyLength r ≤ 8 * bound)
    (hzero : ∀ e ∈ s.primary, e.cache = 0) (hfuel : 8 * bound < fuel) :
    ∃ s', msdRadixSort view fuel 0 false s = some s' ∧
      SortsTo (windows view bound 0 (pointers s)) false s s' := by
  refine (sorts view bound fuel).1 0 s (Nat.zero_le _) (by omega) hs ?_ ?_
  · intro e he
    exact hkeys e.pointer (List.mem_map.mpr ⟨e, he, rfl⟩)
  · intro e he e' he'
    rw [hzero e he, hzero e' he']

end M3bp.RadixSort
