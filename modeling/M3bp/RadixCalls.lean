import M3bp.RadixSortSpec
import Mathlib.Algebra.GroupWithZero.Nat

/-!
The recursive calls of the sort, as a tree. A call passes adjacent slices of its
arrays on, and what it returns depends on the calls it makes and on nothing else.
Whatever the keys are, the slices of every call lie inside those of its caller,
calls at a multiple of eight are not swapped, and the records end up in the
arrays that the outermost caller passed first.
-/
namespace M3bp.RadixSort

/-- The arguments of a recursive call; `offset` is where its slices begin in
those of the caller. -/
structure Call (ρ : Type) where
  depth : ℕ
  swapped : Bool
  offset : ℕ
  slices : Slices ρ

variable {ρ : Type}

/-- The adjacent slices of the given sizes, with the places where they begin. -/
def pieces : List ℕ → ℕ → Slices ρ → List (ℕ × Slices ρ)
  | [], _, _ => []
  | k :: ks, o, s => (o, s.take k) :: pieces ks (o + k) (s.drop k)

/-- What a call does before it branches. -/
def loaded (view : KeyView ρ) (depth : ℕ) (s : Slices ρ) : Slices ρ :=
  if depth % 8 = 0 then copyCache (loadWork view depth s) else s

def orient (swapped : Bool) (s : Slices ρ) : Slices ρ :=
  if swapped then { s with work := s.primary }.flip else s

def runCalls (depth : ℕ) (swapped : Bool) (s : Slices ρ) : List (Call ρ) :=
  match QuickSort.quickSort (s.primary.length + 1) s.primary with
  | none => []
  | some sorted =>
    ((pieces (runLengths sorted) 0 { orient swapped s with primary := sorted }).filter
      fun p => 2 ≤ p.2.primary.length).map fun p =>
        { depth := (depth + 8) / 8 * 8, swapped := false, offset := p.1, slices := p.2 }

def bucketCalls (depth : ℕ) (swapped : Bool) (s : Slices ρ) : List (Call ρ) :=
  let starts := (BucketScatter.exclusiveSums
    (BucketScatter.countDigits (digit depth) s.primary) bucketSize).1
  match BucketScatter.scatter (digit depth) s.primary starts s.work with
  | none => []
  | some (bins, work) =>
    (pieces (bucketLengths bins) 0 { s with work := work }.flip).map fun p =>
      { depth := depth + 1, swapped := !swapped, offset := p.1, slices := p.2 }

/-- The calls that a call makes itself. -/
def subCalls (view : KeyView ρ) (c : Call ρ) : List (Call ρ) :=
  if c.slices.primary.length = 0 ∨ (c.depth % 8 = 0 ∧ isFinished view c.depth c.slices) then
    []
  else if c.slices.primary.length < radixSortThreshold then
    runCalls c.depth c.swapped (loaded view c.depth c.slices)
  else
    bucketCalls c.depth c.swapped (loaded view c.depth c.slices)

/-- The calls below a call, and the call itself. -/
def Makes (view : KeyView ρ) : Call ρ → Call ρ → Prop :=
  Relation.ReflTransGen fun c c' => c' ∈ subCalls view c

variable {view : KeyView ρ} {fuel depth : ℕ} {swapped : Bool} {s : Slices ρ}

/-- A relation between results that survives what a call does with those of its own calls. -/
structure Carried (R : Bool → Slices ρ → Slices ρ → Prop) : Prop where
  refl : ∀ swapped s, R swapped s s
  append : ∀ {swapped s t s' t'}, R swapped s t → R swapped s' t' →
    R swapped (s.append s') (t.append t')
  flip : ∀ {swapped s t}, R swapped s t → R (!swapped) s.flip t.flip

theorem carried_eq : Carried fun _ : Bool => @Eq (Slices ρ) where
  refl _ _ := rfl
  append h h' := by rw [h, h']
  flip h := by rw [h]

theorem onSlices_rel {R : Bool → Slices ρ → Slices ρ → Prop} (hR : Carried R)
    {f g : Slices ρ → Option (Slices ρ)} (ks : List ℕ) (o : ℕ) (s : Slices ρ)
    (h : ∀ p ∈ pieces ks o s, Option.Rel (R swapped) (f p.2) (g p.2)) :
    Option.Rel (R swapped) (Slices.onSlices f ks s) (Slices.onSlices g ks s) := by
  induction ks generalizing o s with
  | nil => exact .some (hR.refl _ _)
  | cons k ks ih =>
    have hhead := h (o, s.take k) List.mem_cons_self
    have htail := ih (o + k) (s.drop k) fun p hp => h p (List.mem_cons_of_mem _ hp)
    rw [Slices.onSlices, Slices.onSlices]
    simp only at hhead
    generalize f (s.take k) = a at hhead ⊢
    generalize g (s.take k) = b at hhead ⊢
    generalize Slices.onSlices f ks (s.drop k) = c at htail ⊢
    generalize Slices.onSlices g ks (s.drop k) = d at htail ⊢
    cases hhead with
    | none => exact .none
    | some hhead =>
      cases htail with
      | none => exact .none
      | some htail => exact .some (hR.append hhead htail)

theorem length_loaded (s : Slices ρ) (h : s.work.length = s.primary.length) :
    (loaded view depth s).primary.length = s.primary.length := by
  unfold loaded
  split <;> simp [copyCache, loadWork, h]

theorem loadWork_congr {view' : KeyView ρ}
    (h : ∀ e ∈ s.primary, view'.block e.pointer depth = view.block e.pointer depth) :
    loadWork view' depth s = loadWork view depth s := by
  have hzip : ∀ (work primary : List (Entry ρ)),
      (∀ e ∈ primary, view'.block e.pointer depth = view.block e.pointer depth) →
      work.zipWith (fun w e => { w with cache := view'.block e.pointer depth }) primary =
        work.zipWith (fun w e => { w with cache := view.block e.pointer depth }) primary := by
    intro work primary hprimary
    induction primary generalizing work with
    | nil => simp
    | cons e primary ih =>
      cases work with
      | nil => rfl
      | cons w work =>
        rw [List.zipWith_cons_cons, List.zipWith_cons_cons, hprimary e List.mem_cons_self,
          ih work fun e' he' => hprimary e' (List.mem_cons_of_mem e he')]
  simp only [loadWork, hzip s.work s.primary h]

theorem isFinished_congr {view' : KeyView ρ}
    (h : ∀ e ∈ s.primary, view'.keyLength e.pointer = view.keyLength e.pointer) :
    isFinished view' depth s = isFinished view depth s := by
  unfold isFinished
  rw [Bool.eq_iff_iff, List.all_eq_true, List.all_eq_true]
  exact forall₂_congr fun e he => by rw [h e he]

theorem rel_sortRuns {R : Bool → Slices ρ → Slices ρ → Prop} (hR : Carried R)
    {recur recur' : ℕ → Bool → Slices ρ → Option (Slices ρ)}
    (h : ∀ c ∈ runCalls depth swapped s,
      Option.Rel (R c.swapped) (recur' c.depth c.swapped c.slices)
        (recur c.depth c.swapped c.slices)) :
    Option.Rel (R swapped) (sortRuns recur' depth swapped s) (sortRuns recur depth swapped s) := by
  have horient : (if swapped then { s with work := s.primary }.flip else s) = orient swapped s := rfl
  have hprimary : (orient swapped s).primary = s.primary := by cases swapped <;> rfl
  simp only [sortRuns, horient, hprimary]
  unfold runCalls at h
  rcases hsort : QuickSort.quickSort (s.primary.length + 1) s.primary with _ | sorted
  · exact .none
  · simp only [hsort] at h
    simp only [Option.bind_eq_bind, Option.bind_some]
    have hruns := @onSlices_rel _ false _ hR
      (fun run => if 2 ≤ run.primary.length then recur' ((depth + 8) / 8 * 8) false run else some run)
      (fun run => if 2 ≤ run.primary.length then recur ((depth + 8) / 8 * 8) false run else some run)
      (runLengths sorted) 0 { orient swapped s with primary := sorted } fun p hp => by
        by_cases htwo : 2 ≤ p.2.primary.length
        · rw [if_pos htwo, if_pos htwo]
          exact h _ (List.mem_map.mpr ⟨p, List.mem_filter.mpr ⟨hp, by simpa using htwo⟩, rfl⟩)
        · rw [if_neg htwo, if_neg htwo]
          exact .some (hR.refl _ _)
    revert hruns
    generalize Slices.onSlices _ _ _ = a
    generalize Slices.onSlices _ _ _ = b
    intro hruns
    cases hruns with
    | none => exact .none
    | some hruns =>
      cases swapped
      · exact .some hruns
      · exact .some (hR.flip hruns)

theorem rel_sortBuckets {R : Bool → Slices ρ → Slices ρ → Prop} (hR : Carried R)
    {recur recur' : ℕ → Bool → Slices ρ → Option (Slices ρ)}
    (h : ∀ c ∈ bucketCalls depth swapped s,
      Option.Rel (R c.swapped) (recur' c.depth c.swapped c.slices)
        (recur c.depth c.swapped c.slices)) :
    Option.Rel (R swapped) (sortBuckets recur' depth swapped s)
      (sortBuckets recur depth swapped s) := by
  unfold sortBuckets
  unfold bucketCalls at h
  rcases hscatter : BucketScatter.scatter (digit depth) s.primary
      (BucketScatter.exclusiveSums (BucketScatter.countDigits (digit depth) s.primary)
        bucketSize).1 s.work with _ | ⟨bins, work⟩
  · simp only [hscatter]
    exact .none
  · simp only [hscatter] at h
    simp only [hscatter, Option.bind_eq_bind, Option.bind_some]
    have hbuckets := @onSlices_rel _ (!swapped) _ hR (recur' (depth + 1) !swapped)
      (recur (depth + 1) !swapped) (bucketLengths bins) 0 { s with work := work }.flip
      fun p hp => h _ (List.mem_map.mpr ⟨p, hp, rfl⟩)
    revert hbuckets
    generalize Slices.onSlices _ _ _ = a
    generalize Slices.onSlices _ _ _ = b
    intro hbuckets
    cases hbuckets with
    | none => exact .none
    | some hbuckets =>
      have hflip := hR.flip hbuckets
      rw [Bool.not_not] at hflip
      exact .some hflip

/-- Two calls that go on with the same blocks: what they return is related if what the calls in
their list return is. -/
theorem rel_of_subCalls {R : Bool → Slices ρ → Slices ρ → Prop} (hR : Carried R)
    {view' : KeyView ρ} {fuel' : ℕ} (hwork : s.work.length = s.primary.length)
    (hlength : ∀ e ∈ s.primary, view'.keyLength e.pointer = view.keyLength e.pointer)
    (hblock : depth % 8 = 0 →
      ∀ e ∈ s.primary, view'.block e.pointer depth = view.block e.pointer depth)
    (hnil : s.primary.length ≠ 0) (hgo : ¬ (depth % 8 = 0 ∧ isFinished view depth s = true))
    (h : ∀ c ∈ subCalls view ⟨depth, swapped, 0, s⟩,
      Option.Rel (R c.swapped) (msdRadixSort view' fuel' c.depth c.swapped c.slices)
        (msdRadixSort view fuel c.depth c.swapped c.slices)) :
    Option.Rel (R swapped) (msdRadixSort view' (fuel' + 1) depth swapped s)
      (msdRadixSort view (fuel + 1) depth swapped s) := by
  have hfinished := @isFinished_congr _ view depth s view' hlength
  have hloaded : (if depth % 8 = 0 then copyCache (loadWork view' depth s) else s) =
      loaded view depth s := by
    unfold loaded
    by_cases hdepth : depth % 8 = 0
    · rw [if_pos hdepth, if_pos hdepth, loadWork_congr (hblock hdepth)]
    · rw [if_neg hdepth, if_neg hdepth]
  have hmain : (if depth % 8 = 0 then copyCache (loadWork view depth s) else s) =
    loaded view depth s := rfl
  have hlen := @length_loaded _ view depth s hwork
  rw [msdRadixSort, msdRadixSort, if_neg hnil, if_neg hnil, if_neg hgo, if_neg (by rwa [hfinished])]
  simp only [hloaded, hmain]
  unfold subCalls at h
  rw [if_neg (by simp only [not_or]; exact ⟨hnil, hgo⟩)] at h
  by_cases hsmall : s.primary.length < radixSortThreshold
  · rw [if_pos hsmall] at h
    rw [if_pos (by omega), if_pos (by omega)]
    exact rel_sortRuns hR h
  · rw [if_neg hsmall] at h
    rw [if_neg (by omega), if_neg (by omega)]
    exact rel_sortBuckets hR h

/-- What a call returns is decided by the calls in its list. -/
theorem msdRadixSort_congr {view' : KeyView ρ} {fuel' : ℕ} (hwork : s.work.length = s.primary.length)
    (hlength : ∀ e ∈ s.primary, view'.keyLength e.pointer = view.keyLength e.pointer)
    (hblock : depth % 8 = 0 →
      ∀ e ∈ s.primary, view'.block e.pointer depth = view.block e.pointer depth)
    (h : ∀ c ∈ subCalls view ⟨depth, swapped, 0, s⟩,
      msdRadixSort view' fuel' c.depth c.swapped c.slices =
        msdRadixSort view fuel c.depth c.swapped c.slices) :
    msdRadixSort view' (fuel' + 1) depth swapped s = msdRadixSort view (fuel + 1) depth swapped s := by
  by_cases hnil : s.primary.length = 0
  · rw [msdRadixSort, msdRadixSort, if_pos hnil, if_pos hnil]
  by_cases hdone : depth % 8 = 0 ∧ isFinished view depth s = true
  · have hfinished := @isFinished_congr _ view depth s view' hlength
    rw [msdRadixSort, msdRadixSort, if_neg hnil, if_neg hnil, if_pos hdone, if_pos (by rwa [hfinished]),
      loadWork_congr (hblock hdone.1)]
  have hrel := rel_of_subCalls carried_eq hwork hlength hblock hnil hdone fun c hc => by
    rw [h c hc]
    generalize msdRadixSort view fuel c.depth c.swapped c.slices = a
    cases a with
    | none => exact .none
    | some a => exact .some rfl
  generalize msdRadixSort view' (fuel' + 1) depth swapped s = a at hrel ⊢
  generalize msdRadixSort view (fuel + 1) depth swapped s = b at hrel ⊢
  cases hrel with
  | none => rfl
  | some h => rw [h]

/-! The slices of the calls. -/

/-- The three slices have the same length. -/
structure WellSliced (s : Slices ρ) : Prop where
  work : s.work.length = s.primary.length
  marks : s.equalsToLeft.length = s.primary.length

theorem WellSliced.take (h : WellSliced s) (k : ℕ) : WellSliced (s.take k) :=
  ⟨by simp [Slices.take, h.work], by simp [Slices.take, h.marks]⟩

theorem WellSliced.drop (h : WellSliced s) (k : ℕ) : WellSliced (s.drop k) :=
  ⟨by simp [Slices.drop, h.work], by simp [Slices.drop, h.marks]⟩

theorem WellSliced.loaded (h : WellSliced s) : WellSliced (loaded view depth s) := by
  unfold RadixSort.loaded
  split
  · exact ⟨by simp [copyCache, loadWork, h.work], by simp [copyCache, loadWork, h.work, h.marks]⟩
  · exact h

theorem pointers_loaded (h : WellSliced s) : pointers (loaded view depth s) = pointers s := by
  unfold RadixSort.loaded
  split
  · refine List.ext_getElem ?_ fun i hi hi' => ?_
    · simp [pointers, copyCache, loadWork, h.work]
    · simp [pointers, copyCache, loadWork]
  · rfl

/-- The slices that are passed on lie inside those that are there. -/
theorem pieces_inside {ks : List ℕ} {o : ℕ} (h : WellSliced s) (hsum : ks.sum ≤ s.primary.length) :
    ∀ p ∈ pieces ks o s, WellSliced p.2 ∧ p.1 + p.2.primary.length ≤ o + s.primary.length := by
  induction ks generalizing o s with
  | nil => simp [pieces]
  | cons k ks ih =>
    rw [List.sum_cons] at hsum
    have hdrop : (s.drop k).primary.length = s.primary.length - k := by simp [Slices.drop]
    intro p hp
    rcases List.mem_cons.mp hp with rfl | hp
    · refine ⟨h.take k, ?_⟩
      have htake : (s.take k).primary.length = min k s.primary.length := by simp [Slices.take]
      simp only [htake]
      omega
    · obtain ⟨hwell, hle⟩ := ih (h.drop k) (by omega) p hp
      exact ⟨hwell, by omega⟩

theorem sum_runLengths (xs : List (Entry ρ)) : (runLengths xs).sum = xs.length := by
  induction xs with
  | nil => rfl
  | cons e xs ih =>
    cases xs with
    | nil => rfl
    | cons e' rest =>
      rw [runLengths]
      split
      · next hnil =>
        rw [hnil] at ih
        simp at ih
      · next k ks hcons =>
        rw [hcons, List.sum_cons] at ih
        split <;> simp only [List.sum_cons, List.length_cons] at ih ⊢ <;> omega

theorem digit_lt_bucketSize (depth : ℕ) (e : Entry ρ) : digit depth e < bucketSize := by
  have hdigit := digit_lt (m := depth / 8) (j := depth % 8) (Nat.mod_lt _ (by decide)) e
  rwa [Nat.div_add_mod] at hdigit

/-- The scatter of a call succeeds and its buckets make up the slice. -/
theorem scatter_slices (depth : ℕ) (h : WellSliced s) :
    ∃ ends work, BucketScatter.scatter (digit depth) s.primary
        (BucketScatter.exclusiveSums (BucketScatter.countDigits (digit depth) s.primary) bucketSize).1
        s.work = some (ends, work) ∧
      work = (BucketScatter.buckets (digit depth) bucketSize s.primary).flatten ∧
      work.Perm s.primary ∧
      bucketLengths ends =
        (BucketScatter.buckets (digit depth) bucketSize s.primary).map List.length ∧
      (bucketLengths ends).sum = s.primary.length := by
  have hdigit : ∀ e ∈ s.primary, digit depth e < bucketSize := fun e _ => digit_lt_bucketSize depth e
  obtain ⟨ends, hscatter, hends⟩ := BucketScatter.scatter_spec hdigit h.work
  have hperm := BucketScatter.flatten_buckets_perm hdigit
  refine ⟨ends, _, hscatter, rfl, hperm, bucketLengths_eq hends, ?_⟩
  rw [bucketLengths_eq hends, ← List.length_flatten, hperm.length_eq]

theorem wellSliced_orient (h : WellSliced s) : WellSliced (orient swapped s) := by
  cases swapped
  · exact h
  · exact ⟨rfl, h.marks⟩

theorem primary_orient : (orient swapped s).primary = s.primary := by
  cases swapped <;> rfl

/-- A call in the list: its depth, its direction and its slices. -/
theorem subCalls_inside {c c' : Call ρ} (h : WellSliced c.slices)
    (hswapped : c.swapped = decide (c.depth % 2 = 1)) (hc : c' ∈ subCalls view c) :
    WellSliced c'.slices ∧ c'.swapped = decide (c'.depth % 2 = 1) ∧
      c'.offset + c'.slices.primary.length ≤ c.slices.primary.length := by
  have hloaded := @WellSliced.loaded _ view c.depth _ h
  have hlen := @length_loaded _ view c.depth c.slices h.work
  unfold subCalls at hc
  split at hc
  · cases hc
  split at hc
  · unfold runCalls at hc
    split at hc
    · cases hc
    · next sorted hsort =>
      obtain ⟨sorted', hsort', hperm, -⟩ := QuickSort.quickSort_spec
        ((loaded view c.depth c.slices).primary.length + 1) (loaded view c.depth c.slices).primary
        (by omega)
      obtain rfl : sorted = sorted' := Option.some.inj (hsort.symm.trans hsort')
      obtain ⟨p, hp, rfl⟩ := List.mem_map.mp hc
      have hslen := hperm.length_eq
      have horient := @wellSliced_orient _ c.swapped _ hloaded
      have hwell : WellSliced { orient c.swapped (loaded view c.depth c.slices) with primary := sorted } := by
        refine ⟨?_, ?_⟩
        · simp only
          rw [horient.work, primary_orient, hslen]
        · simp only
          rw [horient.marks, primary_orient, hslen]
      obtain ⟨hp₁, hp₂⟩ := pieces_inside (o := 0) hwell (sum_runLengths sorted).le p
        (List.mem_filter.mp hp).1
      refine ⟨hp₁, ?_, ?_⟩
      · have heven : ¬ (c.depth + 8) / 8 * 8 % 2 = 1 := by omega
        exact (decide_eq_false heven).symm
      · have hp' : p.1 + p.2.primary.length ≤ 0 + sorted.length := hp₂
        simp only
        omega
  · unfold bucketCalls at hc
    obtain ⟨ends, work, hscatter, -, hperm, -, hsum⟩ := scatter_slices c.depth hloaded
    simp only [hscatter] at hc
    obtain ⟨p, hp, rfl⟩ := List.mem_map.mp hc
    have hwlen := hperm.length_eq
    have hwell : WellSliced { loaded view c.depth c.slices with work := work }.flip :=
      ⟨hwlen.symm, hloaded.marks.trans hwlen.symm⟩
    obtain ⟨hp₁, hp₂⟩ := pieces_inside (o := 0) hwell (by rw [hsum]; exact hwlen.ge) p hp
    refine ⟨hp₁, ?_, ?_⟩
    · simp only [hswapped]
      by_cases hodd : c.depth % 2 = 1
      · have heven : ¬ (c.depth + 1) % 2 = 1 := by omega
        simp [hodd, heven]
      · have hodd' : (c.depth + 1) % 2 = 1 := by omega
        simp [hodd, hodd']
    · simp only [Slices.flip] at hp₂ ⊢
      omega

/-- All calls below a call. -/
theorem makes_inside {c c' : Call ρ} (h : WellSliced c.slices)
    (hswapped : c.swapped = decide (c.depth % 2 = 1)) (hmakes : Makes view c c') :
    WellSliced c'.slices ∧ c'.swapped = decide (c'.depth % 2 = 1) := by
  induction hmakes with
  | refl => exact ⟨h, hswapped⟩
  | tail _ hc ih =>
    obtain ⟨hwell, hs, -⟩ := subCalls_inside ih.1 ih.2 hc
    exact ⟨hwell, hs⟩

/-! The records. -/

/-- The records stay in the slices and end up on the side the outermost caller
passed first. -/
structure Delivers (swapped : Bool) (s s' : Slices ρ) : Prop where
  well : WellSliced s'
  length : s'.primary.length = s.primary.length
  perm : ((target swapped s').map Entry.pointer).Perm (pointers s)
  mark : s'.equalsToLeft.head? = s.equalsToLeft.head?

theorem Delivers.of_slice (h : WellSliced s) : Delivers false s s :=
  ⟨h, rfl, List.Perm.refl _, rfl⟩

theorem Slices.take_append_drop (s : Slices ρ) (k : ℕ) : (s.take k).append (s.drop k) = s := by
  simp [Slices.take, Slices.drop, Slices.append]

theorem Delivers.append {s t s' t' : Slices ρ} (h : Delivers swapped s s') (h' : Delivers swapped t t') :
    Delivers swapped (s.append t) (s'.append t') := by
  refine ⟨⟨?_, ?_⟩, ?_, ?_, ?_⟩
  · simp [Slices.append, h.well.work, h'.well.work]
  · simp [Slices.append, h.well.marks, h'.well.marks]
  · simp [Slices.append, h.length, h'.length]
  · have htarget : target swapped (s'.append t') = target swapped s' ++ target swapped t' := by
      cases swapped <;> rfl
    have hpointers : pointers (s.append t) = pointers s ++ pointers t := by
      simp [pointers, Slices.append]
    rw [htarget, hpointers, List.map_append]
    exact h.perm.append h'.perm
  · simp only [Slices.append, List.head?_append, h.mark, h'.mark]

theorem onSlices_delivers {f : Slices ρ → Option (Slices ρ)} {ks : List ℕ} (o : ℕ) {s : Slices ρ}
    (hs : WellSliced s) (hsum : ks.sum = s.primary.length)
    (h : ∀ p ∈ pieces ks o s, ∃ t, f p.2 = some t ∧ Delivers swapped p.2 t) :
    ∃ s', Slices.onSlices f ks s = some s' ∧ Delivers swapped s s' := by
  induction ks generalizing o s with
  | nil =>
    have hnil : s.primary = [] := List.length_eq_zero_iff.mp hsum.symm
    have hwork : s.work = [] := List.length_eq_zero_iff.mp (by rw [hs.work, hnil]; rfl)
    refine ⟨s, rfl, hs, rfl, ?_, rfl⟩
    cases swapped <;> simp [target, pointers, hnil, hwork]
  | cons k ks ih =>
    rw [List.sum_cons] at hsum
    have hdrop : (s.drop k).primary.length = s.primary.length - k := by simp [Slices.drop]
    obtain ⟨head, hhead, hd⟩ := h _ List.mem_cons_self
    obtain ⟨tail, htail, hd'⟩ := ih (o + k) (hs.drop k) (by omega) fun p hp =>
      h p (List.mem_cons_of_mem _ hp)
    refine ⟨head.append tail, by simp [Slices.onSlices, hhead, htail], ?_⟩
    have happend := hd.append hd'
    rwa [Slices.take_append_drop] at happend

theorem head?_markEqual (s : Slices ρ) :
    (markEqual s).equalsToLeft.head? = s.equalsToLeft.head? := by
  unfold markEqual
  split
  · next h =>
    rw [h]
    rfl
  · rfl

theorem length_markRest (e : Entry ρ) (rest : List (Entry ρ)) (marks : List Bool) :
    (markRest e rest marks).length = marks.length := by
  induction rest generalizing e marks with
  | nil => rfl
  | cons a rest ih =>
    cases marks with
    | nil => rfl
    | cons b marks => simp [markRest, ih]

theorem length_markEqual (s : Slices ρ) :
    (markEqual s).equalsToLeft.length = s.equalsToLeft.length := by
  unfold markEqual
  split
  · next h =>
    rw [h]
    simp [length_markRest]
  · rfl

end M3bp.RadixSort
