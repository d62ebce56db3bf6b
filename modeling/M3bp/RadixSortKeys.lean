import M3bp.ShuffleOutput

/-!
What the sort does with records in memory whose keys are not prefixes of each
other: it orders them by their keys and marks the records that have the key of
the record before.
-/
namespace M3bp

open MarkedSort (Sorted leftMarks tailMarks)

namespace Shuffle

/-- The arrays as `sort_records` passes them, with anything in the work arrays. -/
structure SortArrays (pointers : List ℕ) (s : Slices ℕ) : Prop where
  marks : s.equalsToLeft = List.replicate pointers.length false
  primary : s.primary = pointers.map fun ptr => { cache := 0, pointer := ptr }
  work : s.work.length = pointers.length

def keyOrder (mem : ByteMemory) (ptr : ℕ) : List ℕ := (KeyBlock.keyAt mem ptr).map UInt8.toNat

theorem keyOrder_injective {mem : ByteMemory} {a b : ℕ} (h : keyOrder mem a = keyOrder mem b) :
    KeyBlock.keyAt mem a = KeyBlock.keyAt mem b :=
  List.map_injective_iff.mpr (fun _ _ => UInt8.toNat_inj.mp) h

/-- Records whose keys are not prefixes of each other are sorted by their keys. -/
theorem msd_radix_sort_sorts (mem : ByteMemory) (pointers : List ℕ)
    (hfree : ∀ a ∈ pointers, ∀ b ∈ pointers, KeyBlock.keyAt mem a <+: KeyBlock.keyAt mem b →
      KeyBlock.keyAt mem a = KeyBlock.keyAt mem b) (s : Slices ℕ) (hs : SortArrays pointers s) :
    ∃ n, ∀ fuel, n ≤ fuel → ∃ s', RadixSort.msdRadixSort (KeyBlock.view mem) fuel 0 false s = some s' ∧
      (RadixSort.pointers s').Perm pointers ∧
      (RadixSort.pointers s').Pairwise
        (fun a b => ¬ LexLt (KeyBlock.keyAt mem b) (KeyBlock.keyAt mem a)) ∧
      s'.equalsToLeft.length = pointers.length ∧
      ∀ i, s'.equalsToLeft[i]? = some true ↔ 0 < i ∧ ∃ a b, (RadixSort.pointers s')[i - 1]? = some a ∧
        (RadixSort.pointers s')[i]? = some b ∧ KeyBlock.keyAt mem b = KeyBlock.keyAt mem a := by
  have hpointers : RadixSort.pointers s = pointers := by
    have hid : (Entry.pointer ∘ fun ptr : ℕ => { cache := 0, pointer := ptr }) = id := rfl
    simp [RadixSort.pointers, hs.primary, hid]
  have hlen : s.primary.length = pointers.length := by simp [hs.primary]
  have hfresh : RadixSort.Fresh s := ⟨hs.work.trans hlen.symm, by rw [hlen, hs.marks]⟩
  have hlength : ∀ ptr ∈ pointers, (KeyBlock.keyAt mem ptr).length ≤ 8 * maxKeyLength mem pointers := by
    intro ptr hptr
    have hle := @keyLength_le_max mem _ _ hptr
    have hkey : (KeyBlock.keyAt mem ptr).length = KeyBlock.getKeyLength mem ptr := by
      simp [KeyBlock.keyAt]
    omega
  have hdistinct : ∀ a ∈ pointers, ∀ b ∈ pointers,
      ¬ ZeroExtends (KeyBlock.keyAt mem a) (KeyBlock.keyAt mem b) := fun a ha b hb h =>
    h.1 (hfree a ha b hb h.isPrefix)
  refine ⟨8 * maxKeyLength mem pointers + 1, fun fuel hfuel => ?_⟩
  obtain ⟨s', hrun, hsorted⟩ := @RadixSort.msdRadixSort_spec _ (KeyBlock.view mem) fuel
    (maxKeyLength mem pointers) _ hfresh
    (by
      intro ptr hptr
      rw [hpointers] at hptr
      have hle := @keyLength_le_max mem _ _ hptr
      simp only [KeyBlock.view]
      omega)
    (by
      intro e he
      rw [hs.primary] at he
      obtain ⟨ptr, -, rfl⟩ := List.mem_map.mp he
      rfl)
    (by omega)
  rw [hpointers] at hsorted
  have hblocks := hsorted.sorted
  rw [hpointers] at hblocks
  -- the blocks order the records as their keys do
  have hkeys : Sorted (keyOrder mem) pointers (RadixSort.pointers s') s'.equalsToLeft := by
    refine hblocks.congr fun a ha b hb => ?_
    have hlt := RadixSort.windows_lt_iff (shows_keyAt mem) hdistinct hlength hb ha
    rw [← not_lt, ← not_lt]
    exact not_congr hlt
  refine ⟨s', hrun, hkeys.perm, ?_, ?_, fun i => ?_⟩
  · exact hkeys.pairwise.imp fun {a b} hle => not_lt.mpr hle
  · rw [hkeys.marks_eq, MarkedSort.length_leftMarks, hkeys.perm.length_eq]
  · have hcongr : leftMarks (keyOrder mem) (RadixSort.pointers s') =
        leftMarks (KeyBlock.keyAt mem) (RadixSort.pointers s') :=
      MarkedSort.leftMarks_congr _ fun a _ b _ =>
        ⟨keyOrder_injective, fun h => by rw [keyOrder, keyOrder, h]⟩
    have hmarks : s'.equalsToLeft = leftMarks (KeyBlock.keyAt mem) (RadixSort.pointers s') := by
      rw [hkeys.marks_eq, ← hcongr]
      congr
    rw [hmarks, MarkedSort.getElem?_leftMarks]

/-- Two records with one byte of key and one byte of value. -/
def twoRecords : ByteMemory := fun x =>
  if x = 0 ∨ x = 100 then 2
  else if x = 8 ∨ x = 108 then 1
  else if x = 16 then 98
  else if x = 116 then 97
  else 0

theorem msd_radix_sort_sorts_pair :
    ∃ n, ∀ fuel, n ≤ fuel → ∃ s', RadixSort.msdRadixSort (KeyBlock.view twoRecords) fuel 0 false
        (sortInput [0, 100]) = some s' ∧
      (RadixSort.pointers s').Perm [0, 100] ∧
      (RadixSort.pointers s').Pairwise
        (fun a b => ¬ LexLt (KeyBlock.keyAt twoRecords b) (KeyBlock.keyAt twoRecords a)) ∧
      s'.equalsToLeft.length = 2 ∧
      ∀ i, s'.equalsToLeft[i]? = some true ↔ 0 < i ∧ ∃ a b, (RadixSort.pointers s')[i - 1]? = some a ∧
        (RadixSort.pointers s')[i]? = some b ∧
        KeyBlock.keyAt twoRecords b = KeyBlock.keyAt twoRecords a :=
  msd_radix_sort_sorts twoRecords [0, 100] (by decide) (sortInput [0, 100]) ⟨rfl, rfl, rfl⟩

end Shuffle

end M3bp
