import M3bp.KeyClasses

/-!
When the sort asks for a block behind the end of a key. A record that is taken too
far is found by going down the calls that hold it, and a call that stays inside
hands on nothing but classes.
-/
namespace M3bp.RadixSort

variable {ρ : Type} {view : KeyView ρ} {key : ρ → List UInt8} {S : List ρ} {c c' : Call ρ}

namespace OpenCall

variable {depth : ℕ} {swapped : Bool} {s : Slices ρ} {r : ρ}

theorem length_primary (h : OpenCall view key S depth s) (hr : r ∈ pointers s) :
    s.primary.length = (keyClass key S depth r).length := by
  rw [← (h.members r hr).length_eq, pointers, List.length_map]

theorem runCalls (hshows : Shows view key) (h : OpenCall view key S depth s) :
    (∀ c' ∈ runCalls depth swapped s, c'.depth = 8 * (depth / 8) + 8 ∧
      2 ≤ c'.slices.primary.length ∧ (∀ r ∈ pointers c'.slices, r ∈ pointers s) ∧
      ∀ r ∈ pointers c'.slices,
        (pointers c'.slices).Perm (keyClass key S (8 * (depth / 8) + 8) r)) ∧
    ∀ r ∈ pointers s, 2 ≤ (keyClass key S (8 * (depth / 8) + 8) r).length →
      ∃ c' ∈ runCalls depth swapped s, c'.depth = 8 * (depth / 8) + 8 ∧ r ∈ pointers c'.slices := by
  have hnext : (depth + 8) / 8 * 8 = 8 * (depth / 8) + 8 := by omega
  obtain ⟨sorted, hsort, hperm, hle⟩ :=
    QuickSort.quickSort_spec (s.primary.length + 1) s.primary (by omega)
  obtain ⟨runs, hflatten, hlengths, hclass⟩ := h.runs hshows hperm hle
  obtain ⟨hpieces, hpieces'⟩ := @mem_pieces _ runs 0 { orient swapped s with primary := sorted }
    hflatten.symm
  rw [hlengths] at hpieces hpieces'
  have hin : ∀ run ∈ runs, ∀ e ∈ run, e ∈ s.primary := fun run hrun e he =>
    hperm.mem_iff.mp (hflatten ▸ List.mem_flatten.mpr ⟨run, hrun, he⟩)
  unfold RadixSort.runCalls
  rw [hsort]
  simp only
  constructor
  · intro c' hc'
    obtain ⟨p, hp, rfl⟩ := List.mem_map.mp hc'
    obtain ⟨hp, htwo⟩ := List.mem_filter.mp hp
    have hrun := hpieces p hp
    refine ⟨hnext, of_decide_eq_true htwo, ?_, hclass _ hrun⟩
    intro r hr
    obtain ⟨e, he, rfl⟩ := List.mem_map.mp hr
    exact List.mem_map.mpr ⟨e, hin _ hrun e he, rfl⟩
  · intro r hr htwo
    obtain ⟨e, he, rfl⟩ := List.mem_map.mp hr
    have hsorted : e ∈ runs.flatten := by
      rw [hflatten]
      exact hperm.mem_iff.mpr he
    obtain ⟨run, hrun, hmem⟩ := List.mem_flatten.mp hsorted
    obtain ⟨p, hp, hprimary⟩ := hpieces' run hrun
    have hpointer : e.pointer ∈ run.map Entry.pointer := List.mem_map.mpr ⟨e, hmem, rfl⟩
    have hlength : 2 ≤ p.2.primary.length := by
      rw [hprimary, ← List.length_map Entry.pointer, (hclass run hrun _ hpointer).length_eq]
      exact htwo
    refine ⟨_, List.mem_map.mpr ⟨p, List.mem_filter.mpr ⟨hp, decide_eq_true hlength⟩, rfl⟩, hnext, ?_⟩
    simp only [pointers, hprimary]
    exact hpointer

theorem bucketCalls (hshows : Shows view key) (h : OpenCall view key S depth s) :
    (∀ c' ∈ bucketCalls depth swapped s, c'.depth = depth + 1 ∧
      (∀ e ∈ c'.slices.primary, e ∈ s.primary) ∧
      ∀ r ∈ pointers c'.slices, (pointers c'.slices).Perm (keyClass key S (depth + 1) r)) ∧
    ∀ r ∈ pointers s, ∃ c' ∈ bucketCalls depth swapped s, c'.depth = depth + 1 ∧
      r ∈ pointers c'.slices := by
  obtain ⟨ends, work, hscatter, hwork, -, hlengths, -⟩ := scatter_slices depth h.well
  let chunks := BucketScatter.buckets (digit depth) bucketSize s.primary
  obtain ⟨hpieces, hpieces'⟩ := @mem_pieces _ chunks 0 { s with work := work }.flip hwork
  unfold RadixSort.bucketCalls
  simp only [hscatter, hlengths]
  constructor
  · intro c' hc'
    obtain ⟨p, hp, rfl⟩ := List.mem_map.mp hc'
    obtain ⟨i, -, hbucket⟩ := List.mem_map.mp (hpieces p hp)
    refine ⟨rfl, fun e he => ?_, ?_⟩
    · rw [← hbucket] at he
      exact (List.mem_filter.mp he).1
    · simp only [pointers, ← hbucket]
      exact h.bucket hshows i
  · intro r hr
    obtain ⟨e, he, rfl⟩ := List.mem_map.mp hr
    have hchunk : (s.primary.filter fun x => digit depth x = digit depth e) ∈ chunks :=
      List.mem_map.mpr ⟨digit depth e, List.mem_range.mpr (digit_lt_bucketSize depth e), rfl⟩
    obtain ⟨p, hp, hprimary⟩ := hpieces' _ hchunk
    refine ⟨_, List.mem_map.mpr ⟨p, hp, rfl⟩, rfl, ?_⟩
    simp only [pointers, hprimary]
    exact List.mem_map.mpr ⟨e, List.mem_filter.mpr ⟨he, decide_eq_true rfl⟩, rfl⟩

end OpenCall

/-- A call in the list of a call that stays inside. -/
theorem ClassCall.next (hshows : Shows view key) (h : ClassCall view key S c)
    (hstays : StaysInside key c) (hc : c' ∈ subCalls view c) :
    ClassCall view key S c' ∧
      (c'.depth % 8 = 0 → ∀ r ∈ pointers c'.slices, (key r).length < c'.depth → Overrun key S r) := by
  obtain ⟨hwell, hparity, -⟩ := subCalls_inside h.well h.parity hc
  have hlength := @length_loaded _ view c.depth c.slices h.well.work
  unfold subCalls at hc
  split at hc
  · cases hc
  next hgo =>
  have hopen := h.openCall hshows hstays fun hdone => hgo (Or.inr hdone)
  -- what a record that is taken too far has behind it
  have hlonger : ∀ r ∈ pointers (loaded view c.depth c.slices),
      (key r).length < 8 * (c.depth / 8) + 8 → (key r).length / 8 = c.depth / 8 := by
    intro r hr hlt
    have hreach := hopen.reach r hr
    omega
  split at hc
  · obtain ⟨hdepth, htwo, hin, hclass⟩ := (hopen.runCalls hshows).1 c' hc
    have hround : c'.depth % 8 = 0 := by omega
    refine ⟨⟨hwell, hparity, by rwa [hdepth], fun hne => absurd hround hne,
      fun hne => absurd hround hne, fun hne => absurd hround hne⟩, fun _ r hr hlt => ?_⟩
    have hm := hlonger r (hin r hr) (hdepth ▸ hlt)
    refine ⟨by rw [hm]; exact hopen.longer r (hin r hr), Or.inl ?_⟩
    rw [hm, ← (hclass r hr).length_eq, pointers, List.length_map]
    exact htwo
  · next hlarge =>
    obtain ⟨hdepth, hin, hclass⟩ := (hopen.bucketCalls hshows).1 c' hc
    have hin' : ∀ r ∈ pointers c'.slices, r ∈ pointers (loaded view c.depth c.slices) := by
      intro r hr
      obtain ⟨e, he, rfl⟩ := List.mem_map.mp hr
      exact List.mem_map.mpr ⟨e, hin e he, rfl⟩
    have hsame : c'.depth % 8 ≠ 0 → c'.depth / 8 = c.depth / 8 := by omega
    refine ⟨⟨hwell, hparity, by rwa [hdepth], fun hne e he => ?_, fun hne r hr => ?_,
      fun hne r hr => ?_⟩, fun hround r hr hlt => ?_⟩
    · rw [hsame hne]
      exact hopen.caches e (hin e he)
    · rw [hsame hne]
      exact hopen.reach r (hin' r hr)
    · rw [hsame hne]
      exact hopen.longer r (hin' r hr)
    · have hseven : 8 * (c.depth / 8) + 7 = c.depth := by omega
      have hm := hlonger r (hin' r hr) (by omega)
      refine ⟨by rw [hm]; exact hopen.longer r (hin' r hr), Or.inr ?_⟩
      rw [hm, hseven, ← hopen.length_primary (hin' r hr), hlength]
      exact Nat.le_of_not_lt hlarge

theorem classCall_start {s : Slices ρ} (hs : WellSliced s) :
    ClassCall view key (pointers s) ⟨0, false, 0, s⟩ := by
  refine ⟨hs, rfl, fun r _ => ?_, fun h => absurd rfl h, fun h => absurd rfl h, fun h => absurd rfl h⟩
  have hall : keyClass key (pointers s) 0 r = pointers s :=
    List.filter_eq_self.mpr fun x _ => decide_eq_true (AgreesTo.zero _ _)
  rw [hall]

theorem classCall_of_stays (hshows : Shows view key) {s : Slices ρ} (hs : WellSliced s)
    (hstays : ∀ c, Makes view ⟨0, false, 0, s⟩ c → StaysInside key c)
    (hmakes : Makes view ⟨0, false, 0, s⟩ c) : ClassCall view key (pointers s) c := by
  induction hmakes with
  | refl => exact classCall_start hs
  | tail hmakes hc ih => exact (ih.next hshows (hstays _ hmakes) hc).1

/-- Without such a record every call stays inside. -/
theorem stays_of_no_overrun (hshows : Shows view key) {s : Slices ρ} (hs : WellSliced s)
    (hno : ∀ r ∈ pointers s, ¬ Overrun key (pointers s) r)
    (hmakes : Makes view ⟨0, false, 0, s⟩ c) :
    ClassCall view key (pointers s) c ∧ StaysInside key c := by
  induction hmakes with
  | refl => exact ⟨classCall_start hs, fun _ r _ => Nat.zero_le _⟩
  | tail _ hc ih =>
    obtain ⟨hclass, hover⟩ := ih.1.next hshows ih.2 hc
    refine ⟨hclass, fun hround r hr => ?_⟩
    by_contra hlt
    have hmem : r ∈ pointers s := (mem_keyClass.mp ((hclass.members r hr).mem_iff.mp hr)).1
    exact hno r hmem (hover hround r hr (by omega))

/-- A call that holds `r` hands it on, unless its class comes to nothing. -/
theorem exists_deeper (hshows : Shows view key) {r x : ρ} {k : ℕ} (h : ClassCall view key S c)
    (hstays : StaysInside key c) (hr : r ∈ pointers c.slices)
    (hdepth : 8 * k ≤ c.depth ∧ c.depth < 8 * k + 8) (hx : x ∈ keyClass key S (8 * k) r)
    (hlong : 8 * k < (key x).length)
    (hmany : 2 ≤ (keyClass key S (8 * k + 8) r).length ∨
      radixSortThreshold ≤ (keyClass key S (8 * k + 7) r).length) :
    ∃ c' ∈ subCalls view c, r ∈ pointers c'.slices ∧
      (c'.depth = c.depth + 1 ∨ c'.depth = 8 * k + 8) := by
  have hround : c.depth / 8 = k := by omega
  have hnonempty : c.slices.primary.length ≠ 0 := by
    obtain ⟨e, he, -⟩ := List.mem_map.mp hr
    exact Nat.pos_iff_ne_zero.mp (List.length_pos_of_mem he)
  have hgo : ¬ (c.depth % 8 = 0 ∧ isFinished view c.depth c.slices = true) := by
    rintro ⟨hzero, hfinished⟩
    have hk : c.depth = 8 * k := by omega
    rw [← hk] at hx hlong
    obtain ⟨e, he, rfl⟩ := List.mem_map.mp ((h.members r hr).mem_iff.mpr hx)
    unfold isFinished at hfinished
    have hend := List.all_eq_true.mp hfinished e he
    rw [hshows.length] at hend
    simp only [Bool.not_eq_true', decide_eq_false_iff_not] at hend
    exact hend hlong
  have hopen := h.openCall hshows hstays hgo
  have hpointers := @pointers_loaded _ view c.depth _ h.well
  have hlength := @length_loaded _ view c.depth c.slices h.well.work
  have hr' : r ∈ pointers (loaded view c.depth c.slices) := by rwa [hpointers]
  unfold subCalls
  rw [if_neg (by rintro (hnil | hdone); exacts [hnonempty hnil, hgo hdone])]
  by_cases hsmall : c.slices.primary.length < radixSortThreshold
  · have htwo : 2 ≤ (keyClass key S (8 * (c.depth / 8) + 8) r).length := by
      rw [hround]
      rcases hmany with htwo | hlarge
      · exact htwo
      · -- so small a slice does not hold that many records
        have hcount := hopen.length_primary hr'
        have hle := @length_keyClass_le _ key S c.depth (8 * k + 7) r (by omega)
        omega
    obtain ⟨c', hc', hdepth', hmem⟩ := (hopen.runCalls hshows).2 r hr' htwo
    rw [if_pos hsmall]
    exact ⟨c', hc', hmem, Or.inr (by rw [hdepth', hround])⟩
  · obtain ⟨c', hc', hdepth', hmem⟩ := (hopen.bucketCalls hshows).2 r hr'
    rw [if_neg hsmall]
    exact ⟨c', hc', hmem, Or.inl hdepth'⟩

/-- A record that can be taken too far is. -/
theorem not_stays_of_overrun (hshows : Shows view key) {s : Slices ρ} (hs : WellSliced s) {r : ρ}
    (hr : r ∈ pointers s) (hover : Overrun key (pointers s) r) :
    ∃ c, Makes view ⟨0, false, 0, s⟩ c ∧ ¬ StaysInside key c := by
  by_contra hno
  push Not at hno
  obtain ⟨⟨x, hx, hlong⟩, hmany⟩ := hover
  obtain ⟨hxS, hagree⟩ := mem_keyClass.mp hx
  let m := (key r).length / 8
  have hm : (key r).length < 8 * (m + 1) := by omega
  -- for the windows up to the last one of `r`
  have hdeeper : ∀ k ≤ m, ∀ c, Makes view ⟨0, false, 0, s⟩ c → r ∈ pointers c.slices →
      8 * k ≤ c.depth → c.depth < 8 * k + 8 → ∃ c', Makes view ⟨0, false, 0, s⟩ c' ∧
        r ∈ pointers c'.slices ∧ (c'.depth = c.depth + 1 ∨ c'.depth = 8 * k + 8) := by
    intro k hk c hmakes hmem hlow hhigh
    have hclass := classCall_of_stays hshows hs hno hmakes
    have hmany' : 2 ≤ (keyClass key (pointers s) (8 * k + 8) r).length ∨
        radixSortThreshold ≤ (keyClass key (pointers s) (8 * k + 7) r).length := by
      rcases Nat.lt_or_eq_of_le hk with hlt | rfl
      · left
        rcases hmany with htwo | hlarge
        · exact htwo.trans (length_keyClass_le (by omega))
        · have hle := @length_keyClass_le _ key (pointers s) (8 * k + 8) (8 * m + 7) r (by omega)
          have htwo : 2 ≤ radixSortThreshold := by decide
          exact htwo.trans (hlarge.trans hle)
      · exact hmany
    obtain ⟨c', hc', hmem', hdepth'⟩ := exists_deeper hshows hclass (hno c hmakes) hmem ⟨hlow, hhigh⟩
      (mem_keyClass.mpr ⟨hxS, hagree.mono (show 8 * k ≤ 8 * m by omega)⟩)
      (show 8 * k < (key x).length by omega) hmany'
    exact ⟨c', hmakes.tail hc', hmem', hdepth'⟩
  have hwindow : ∀ k ≤ m, ∀ c, Makes view ⟨0, false, 0, s⟩ c → r ∈ pointers c.slices →
      8 * k ≤ c.depth → c.depth ≤ 8 * k + 8 → ∃ c', Makes view ⟨0, false, 0, s⟩ c' ∧
        r ∈ pointers c'.slices ∧ c'.depth = 8 * k + 8 := by
    intro k hk c hmakes hmem hlow hhigh
    induction hn : 8 * k + 8 - c.depth generalizing c with
    | zero => exact ⟨c, hmakes, hmem, by omega⟩
    | succ n ih =>
      obtain ⟨c', hmakes', hmem', hnext | hnext⟩ := hdeeper k hk c hmakes hmem hlow (by omega)
      · exact ih c' hmakes' hmem' (by omega) (by omega) (by omega)
      · exact ⟨c', hmakes', hmem', hnext⟩
  have hreach : ∀ k ≤ m + 1, ∃ c, Makes view ⟨0, false, 0, s⟩ c ∧ r ∈ pointers c.slices ∧
      c.depth = 8 * k := by
    intro k
    induction k with
    | zero => exact fun _ => ⟨_, Relation.ReflTransGen.refl, hr, rfl⟩
    | succ k ih =>
      intro hk
      obtain ⟨c, hmakes, hmem, hdepth⟩ := ih (by omega)
      obtain ⟨c', hmakes', hmem', hdepth'⟩ := hwindow k (by omega) c hmakes hmem hdepth.ge (by omega)
      exact ⟨c', hmakes', hmem', by rw [hdepth']; omega⟩
  obtain ⟨c, hmakes, hmem, hdepth⟩ := hreach (m + 1) le_rfl
  have hinside := hno c hmakes (by omega) r hmem
  omega

end M3bp.RadixSort
