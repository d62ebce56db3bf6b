import M3bp.ShuffleScan

/-!
The round trip through a shuffle buffer. The scans of the partitions take the
buffer apart exactly where the copy put it together, so that every record of
the fragment is visited once, by the scan of its own partition.
-/
namespace M3bp.Shuffle

variable {P : ℕ} {f : KeyValueFragment}

theorem mem_indicesOf {p i : ℕ} : i ∈ indicesOf P f p ↔ i < f.recordCount ∧ partitionOf P f i = p := by
  simp [indicesOf, allRecords]

/-- The partitions divide the records. -/
theorem flatMap_indicesOf (hP : 0 < P) (hP' : P < 2 ^ 32) :
    ((List.range P).flatMap (indicesOf P f)).Perm (allRecords f) := by
  have hdisjoint : (List.range P).Pairwise
      (Function.onFun List.Disjoint (indicesOf P f)) := by
    refine List.nodup_range.imp fun {p q} hne => ?_
    intro i hp hq
    exact hne ((mem_indicesOf.mp hp).2.symm.trans (mem_indicesOf.mp hq).2)
  have hnodup : ((List.range P).flatMap (indicesOf P f)).Nodup :=
    List.nodup_flatMap.mpr ⟨fun p _ => List.nodup_range.filter _, hdisjoint⟩
  refine (List.perm_ext_iff_of_nodup hnodup List.nodup_range).mpr fun i => ?_
  rw [List.mem_flatMap, List.mem_range]
  constructor
  · rintro ⟨p, -, hi⟩
    exact (mem_indicesOf.mp hi).1
  · intro hi
    exact ⟨partitionOf P f i, List.mem_range.mpr (partitionOf_lt hP hP' i), mem_indicesOf.mpr ⟨hi, rfl⟩⟩

/-- The scans of all partitions visit all records of the fragment. -/
theorem scans_perm {mem : ByteMemory} {scans : ℕ → List ℕ} (hP : 0 < P) (hP' : P < 2 ^ 32)
    (h : ∀ p < P, (scans p).map (storedAt mem) = (indicesOf P f p).map (stored f)) :
    (((List.range P).flatMap scans).map (storedAt mem)).Perm ((allRecords f).map (stored f)) := by
  have hall : ((List.range P).flatMap scans).map (storedAt mem) =
      ((List.range P).flatMap (indicesOf P f)).map (stored f) := by
    rw [List.map_flatMap, List.map_flatMap]
    exact List.flatMap_congr fun p hp => h p (List.mem_range.mp hp)
  rw [hall]
  exact (flatMap_indicesOf hP hP').map (stored f)

/-- `partition_fragment` and the scan of `sort_records`, at every address and
whatever the memory held before. -/
theorem shuffle_buffer_round_trip (hP : 0 < P) (hP' : P < 2 ^ 32) (f : KeyValueFragment)
    (base : ℕ) (mem₀ : ByteMemory) :
    let mem := partitionFragment P f base mem₀
    let offset := fun p => mem.readWord (base + 8 * p)
    offset 0 = 0 ∧ (∀ p < P, offset p ≤ offset (p + 1)) ∧
    8 * (P + 1) + offset P = bufferSize P f ∧
    (∀ p < P, mem.read (dataBase P base + offset p) (offset (p + 1) - offset p) =
      (indicesOf P f p).flatMap (encode f)) ∧
    (∀ x, x < base ∨ base + bufferSize P f ≤ x → mem x = mem₀ x) ∧
    ∃ scans : ℕ → List ℕ,
      (∀ p < P, partitionPointers mem P p base = some (scans p) ∧
        (scans p).map (storedAt mem) = (indicesOf P f p).map (stored f)) ∧
      (((List.range P).flatMap scans).map (storedAt mem)).Perm ((allRecords f).map (stored f)) := by
  intro mem offset
  obtain ⟨hholds, houtside⟩ := partitionFragment_spec (f := f) hP hP' base mem₀
  have hoffset : ∀ p ≤ P, offset p = offsetOf P f p := hholds.offsets
  refine ⟨hoffset 0 hP.le, ?_, ?_, ?_, houtside, ?_⟩
  · intro p hp
    rw [hoffset p hp.le, hoffset (p + 1) hp]
    exact offsetOf_mono (Nat.le_succ p)
  · rw [hoffset P le_rfl, bufferSize_eq hP hP']
  · intro p hp
    have hlength : offset (p + 1) - offset p = (regionBytes P f (allRecords f) p).length := by
      rw [hoffset p hp.le, hoffset (p + 1) hp, offsetOf_succ]
      omega
    rw [hlength, hoffset p hp.le]
    exact hholds.regions p hp
  · have hscan : ∀ p, ∃ pointers, p < P → partitionPointers mem P p base = some pointers ∧
        pointers.map (storedAt mem) = (indicesOf P f p).map (stored f) := by
      intro p
      by_cases hp : p < P
      · obtain ⟨pointers, hpointers, hstored, -⟩ := partitionPointers_stored hholds hp
        exact ⟨pointers, fun _ => ⟨hpointers, hstored⟩⟩
      · exact ⟨[], fun h => absurd h hp⟩
    choose scans hscans using hscan
    exact ⟨scans, hscans, scans_perm hP hP' fun p hp => (hscans p hp).2⟩

/-- Three records from offset 3 on; the second is empty. -/
def lateStart : KeyValueFragment :=
  { recordCount := 3
    valuesData := fun x => UInt8.ofNat x
    valuesOffsets := fun i => [3, 5, 5, 9].getD i 9
    keyLengths := fun i => [1, 0, 4].getD i 0
    offsets_mono := by decide
    keyLengths_le := by decide
    fits := by decide }

theorem shuffle_buffer_round_trip_lateStart :
    let mem := partitionFragment 2 lateStart 16 fun _ => 0xcd
    let offset := fun p => mem.readWord (16 + 8 * p)
    offset 0 = 0 ∧ (∀ p < 2, offset p ≤ offset (p + 1)) ∧
    8 * (2 + 1) + offset 2 = bufferSize 2 lateStart ∧
    (∀ p < 2, mem.read (dataBase 2 16 + offset p) (offset (p + 1) - offset p) =
      (indicesOf 2 lateStart p).flatMap (encode lateStart)) ∧
    (∀ x, x < 16 ∨ 16 + bufferSize 2 lateStart ≤ x → mem x = 0xcd) ∧
    ∃ scans : ℕ → List ℕ,
      (∀ p < 2, partitionPointers mem 2 p 16 = some (scans p) ∧
        (scans p).map (storedAt mem) = (indicesOf 2 lateStart p).map (stored lateStart)) ∧
      (((List.range 2).flatMap scans).map (storedAt mem)).Perm
        ((allRecords lateStart).map (stored lateStart)) :=
  shuffle_buffer_round_trip (by decide) (by decide) lateStart 16 fun _ => 0xcd

end M3bp.Shuffle
