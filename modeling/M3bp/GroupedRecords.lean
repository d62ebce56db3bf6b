import M3bp.ValueSortView

/-!
The records that a grouped buffer shows. Where no key of a partition reads like another one with
zeros behind it, the groups that `sort_records` writes are the keys of the partition, each with
the values of all its records, and the copy that a value sort makes shows the same records.
-/
namespace M3bp

open MarkedSort (groupsOf flatten_groupsOf)
open ValueSort (Rearranges valuesOf)

/-- The groups stand in the buffer one after the other, each with another key, and `records` are
theirs. -/
structure GroupedBuffer.Shows (b : GroupedBuffer) (groups : List (List UInt8 × List (List UInt8)))
    (records : Multiset Record) : Prop where
  groupCount : b.groupCount = groups.length
  groupKey : ∀ g (hg : g < groups.length), b.groupKey g = groups[g].1
  groupValues : ∀ g (hg : g < groups.length), b.groupValues g = groups[g].2.flatten
  distinct : (groups.map Prod.fst).Nodup
  nonempty : ∀ group ∈ groups, group.2 ≠ []
  records : records = .ofList (groups.flatMap fun group => group.2.map fun value => ⟨group.1, value⟩)

/-- Every key of the records has one group, with the values of all its records. -/
def GroupedBuffer.Collects (b : GroupedBuffer) (records : Multiset Record) : Prop :=
  ∃ groups, b.Shows groups records

section Rearranged

variable {b b' : GroupedBuffer} {groups groups' : List (List UInt8 × List (List UInt8))}
  {records : Multiset Record}

/-- The keys are the same, and the values of each are in another order. -/
def SameGroups : List (List UInt8 × List (List UInt8)) → List (List UInt8 × List (List UInt8)) → Prop :=
  List.Forall₂ fun group group' => group.1 = group'.1 ∧ group.2.Perm group'.2

theorem SameGroups.keys (h : SameGroups groups groups') :
    groups.map Prod.fst = groups'.map Prod.fst := by
  induction h with
  | nil => rfl
  | cons hgroup _ ih => rw [List.map_cons, List.map_cons, hgroup.1, ih]

theorem SameGroups.nonempty (h : SameGroups groups groups')
    (hne : ∀ group ∈ groups', group.2 ≠ []) : ∀ group ∈ groups, group.2 ≠ [] := by
  induction h with
  | nil => exact List.forall_mem_nil _
  | cons hgroup _ ih =>
    rw [List.forall_mem_cons] at hne ⊢
    refine ⟨fun hnil => hne.1 ?_, ih hne.2⟩
    rw [hnil] at hgroup
    exact List.Perm.nil_eq hgroup.2 |>.symm

theorem SameGroups.perm (h : SameGroups groups groups') :
    (groups.flatMap fun group => group.2.map fun value => (⟨group.1, value⟩ : Record)).Perm
      (groups'.flatMap fun group => group.2.map fun value => ⟨group.1, value⟩) := by
  induction h with
  | nil => exact List.Perm.refl _
  | cons hgroup _ ih =>
    rw [List.flatMap_cons, List.flatMap_cons, hgroup.1]
    exact (hgroup.2.map _).append ih

theorem exists_sameGroups {bytes : ℕ → List UInt8}
    (h : ∀ g (hg : g < groups.length), Rearranges groups[g].2 (bytes g)) :
    ∃ written, SameGroups written groups ∧
      ∀ g (hg : g < written.length), bytes g = written[g].2.flatten := by
  choose values hperm hbytes using h
  refine ⟨List.ofFn fun g : Fin groups.length => (groups[g].1, values g g.isLt), ?_, fun g hg => ?_⟩
  · refine List.forall₂_iff_get.mpr ⟨List.length_ofFn, fun g hg hg' => ?_⟩
    rw [List.get_ofFn]
    exact ⟨rfl, hperm g hg'⟩
  · rw [List.length_ofFn] at hg
    rw [hbytes g hg, List.getElem_ofFn]

/-- Other orders of the values show the same records. -/
theorem GroupedBuffer.Shows.rearranged (h : b.Shows groups records)
    (hcount : b'.groupCount = b.groupCount)
    (hkeys : ∀ g < b.groupCount, b'.groupKey g = b.groupKey g)
    (hvalues : ∀ g (hg : g < groups.length), Rearranges groups[g].2 (b'.groupValues g)) :
    b'.Collects records := by
  obtain ⟨written, hsame, hbytes⟩ := exists_sameGroups hvalues
  have hlength : written.length = groups.length := hsame.length_eq
  refine ⟨written, ?_, fun g hg => ?_, hbytes, ?_, hsame.nonempty h.nonempty, ?_⟩
  · rw [hcount, h.groupCount, hlength]
  · have hg' : g < groups.length := hlength ▸ hg
    rw [hkeys g (by rw [h.groupCount]; exact hg'), h.groupKey g hg']
    exact ((List.forall₂_iff_get.mp hsame).2 g hg hg').1.symm
  · rw [hsame.keys]
    exact h.distinct
  · rw [h.records]
    exact (Multiset.coe_eq_coe.mpr hsame.perm).symm

end Rearranged

namespace Shuffle

variable {mem : ByteMemory} {pointers : List ℕ} {out : SortedPartition} {sorted : List (ℕ × Bool)}

/-- A group with its key. -/
def keyed (mem : ByteMemory) (group : List ℕ) : List UInt8 × List (List UInt8) :=
  (headKey mem group, group.map (valueAt mem))

theorem map_snd_keyed (mem : ByteMemory) (sorted : List (ℕ × Bool)) :
    ((groupsOf sorted).map (keyed mem)).map Prod.snd = valuesOf mem sorted := by
  rw [List.map_map]
  rfl

/-- What is written shows the records, where the blocks tell keys apart. -/
theorem shows_of_sortsPartition (h : SortsPartition mem pointers out)
    (hapart : TellsKeysApart mem pointers) :
    out.buffer.Shows ((groupsOf out.sorted).map (keyed mem))
      (.ofList (pointers.map (recordAt mem))) := by
  have hholds := h.holds
  refine ⟨by rw [hholds.groupCount, List.length_map], fun g hg => ?_, fun g hg => ?_, ?_, ?_, ?_⟩
  · rw [List.length_map] at hg
    rw [hholds.groupKey g hg, List.getElem_map]
    rfl
  · rw [List.length_map] at hg
    rw [hholds.groupValues g hg, List.getElem_map]
    exact ValueSort.groupBytes_eq _
  · rw [List.map_map]
    refine List.nodup_iff_injective_get.mpr fun i j hij => ?_
    have hi : i < (groupsOf out.sorted).length := i.isLt.trans_eq (List.length_map _)
    have hj : j < (groupsOf out.sorted).length := j.isLt.trans_eq (List.length_map _)
    refine Fin.ext (h.index_eq_of_groupKey hapart hi hj ?_)
    simp only [List.get_eq_getElem, List.getElem_map, Function.comp_apply, keyed] at hij
    rw [hholds.groupKey _ hi, hholds.groupKey _ hj, hij]
  · intro group hgroup
    obtain ⟨pointers', hmem, rfl⟩ := List.mem_map.mp hgroup
    exact fun hnil => h.grouped.nonempty _ hmem (List.map_eq_nil_iff.mp hnil)
  · -- each record is read off with the key of its group
    have hkeyed : ((groupsOf out.sorted).map (keyed mem)).flatMap
        (fun group => group.2.map fun value => (⟨group.1, value⟩ : Record)) =
          (out.sorted.map Prod.fst).map (recordAt mem) := by
      rw [← flatten_groupsOf, List.map_flatten, List.flatMap_map, List.flatMap_def]
      refine congrArg List.flatten (List.map_congr_left fun group hgroup => ?_)
      obtain ⟨g, hg, rfl⟩ := List.mem_iff_getElem.mp hgroup
      rw [keyed, List.map_map]
      refine List.map_congr_left fun a ha => ?_
      have hkey := h.keyAt_eq_groupKey hapart hg ha
      rw [hholds.groupKey g hg] at hkey
      rw [Function.comp_apply, ← hkey, recordAt]
    rw [hkeyed]
    exact Multiset.coe_eq_coe.mpr (h.perm.map _).symm

theorem read_of_read {data data' : ByteMemory} {size i n : ℕ}
    (h : data'.read 0 size = data.read 0 size) (hle : i + n ≤ size) :
    data'.read i n = data.read i n := by
  refine ByteMemory.read_congr fun k hk => ?_
  have hlt : i + k < size := by omega
  have hget := congrArg (fun bytes => bytes[i + k]?) h
  simp only [ByteMemory.getElem_read _ hlt, Nat.zero_add, Option.some.injEq] at hget
  exact hget

theorem keysOffsets_le_writeGroups (hhead : ∀ r ∈ sorted.head?, r.2 = false) (dst : GroupedBuffer)
    {i j : ℕ} (hij : i ≤ j) (hj : j ≤ (writeGroups mem sorted dst).groupCount) :
    (writeGroups mem sorted dst).keysOffsets i ≤ (writeGroups mem sorted dst).keysOffsets j := by
  have hwritten := @Written.foldl mem _ _ hhead (written_start sorted dst)
  have hcount := (@writeGroups_spec mem _ hhead dst).groupCount
  have hj' : j ≤ (sorted.foldl (outputRecord mem) (outputStart sorted dst)).j := by
    rw [hwritten.keys_count, List.length_map, ← hcount]
    exact hj
  have hoffset := hwritten.keysOffsets
  refine (hoffset i (hij.trans hj')).le.trans (le_trans ?_ (hoffset j hj').ge)
  have htake : ∀ l : List (List UInt8), (l.take i).flatten.length ≤ (l.take j).flatten.length := by
    intro l
    rw [← Nat.min_eq_left hij, ← List.take_take]
    conv_rhs => rw [← List.take_append_drop i (l.take j)]
    rw [List.flatten_append, List.length_append]
    exact Nat.le_add_right _ _
  exact htake _

/-- What a value sort makes of the output of `sort_records` shows the same records. -/
theorem collects_valueSort (order : ValueOrder) (hhead : ∀ r ∈ sorted.head?, r.2 = false)
    {dst dst' : GroupedBuffer} {copy : GroupedFragment}
    (hrun : ValueSort.run order
      { layout := layoutFor mem sorted, buffer := writeGroups mem sorted dst } dst' = some copy)
    {records : Multiset Record}
    (h : (writeGroups mem sorted dst).Shows ((groupsOf sorted).map (keyed mem)) records) :
    copy.buffer.Collects records := by
  obtain ⟨out, hout, hview, -, -⟩ := @ValueSort.reordersValues mem _ order hhead dst dst'
  obtain rfl : out = copy := Option.some.inj (hout.symm.trans hrun)
  have hkeys := Option.some.inj hview.keys
  refine h.rearranged hview.recordCount (fun g hg => ?_) fun g hg => ?_
  · have hnext := hview.keyOffsetTable (g + 1) hg
    have hfirst := hview.keyOffsetTable g (Nat.le_of_succ_le hg)
    have hlast : (writeGroups mem sorted dst).keysOffsets (g + 1) ≤ _ :=
      keysOffsets_le_writeGroups hhead dst hg le_rfl
    have hle : (writeGroups mem sorted dst).keysOffsets g ≤
        (writeGroups mem sorted dst).keysOffsets (g + 1) :=
      keysOffsets_le_writeGroups hhead dst (Nat.le_succ g) hg
    simp only [InputBuffer.keyOffsetTable, InputBuffer.bind] at hnext hfirst
    rw [GroupedBuffer.groupKey, GroupedBuffer.groupKey, hnext, hfirst]
    refine read_of_read hkeys ?_
    rw [Nat.add_sub_cancel' hle]
    exact hlast
  · have hlt : g < (writeGroups mem sorted dst).groupCount := h.groupCount.symm ▸ hg
    obtain ⟨values, bytes, hvalues, -, hbytes, hrearranges⟩ := hview.values g hlt
    have hsame : ((groupsOf sorted).map (keyed mem))[g].2 = values := by
      rw [← map_snd_keyed, List.getElem?_map, List.getElem?_eq_getElem hg] at hvalues
      exact Option.some.inj hvalues
    have hgroup : out.buffer.groupValues g = bytes := Option.some.inj hbytes
    rw [hsame, hgroup]
    exact hrearranges

/-- A sort of partition `p` shows its records. -/
theorem shows_sortRecords {P : ℕ} (hP : 0 < P) (hP' : P < 2 ^ 32) (arrivals : Arrivals P)
    (mem₀ : ByteMemory) {p : ℕ} (hp : p < P) {dst : GroupedBuffer} {out : SortedPartition}
    (hout : sortRecords (memoryAfter P arrivals.list mem₀) P (arrivals.list.map Arrival.base) p dst =
      some out)
    (hdistinct : ∀ r ∈ partitionRecords P arrivals.list p,
      ∀ r' ∈ partitionRecords P arrivals.list p, ¬ ZeroExtends r.key r'.key) :
    out.buffer.Shows ((groupsOf out.sorted).map (keyed (memoryAfter P arrivals.list mem₀)))
      (.ofList (partitionRecords P arrivals.list p)) := by
  obtain ⟨pointers, out', -, hout', hrecords, hsorts⟩ := sortRecords_spec hP hP' arrivals mem₀ hp dst
  obtain rfl : out = out' := Option.some.inj (hout.symm.trans hout')
  rw [← hrecords]
  refine shows_of_sortsPartition hsorts (tellsKeysApart_of_distinct fun a ha b hb => ?_)
  have hmem : ∀ c ∈ pointers, recordAt (memoryAfter P arrivals.list mem₀) c ∈
      partitionRecords P arrivals.list p := fun c hc => by
    rw [← hrecords]
    exact List.mem_map_of_mem hc
  have hkeys := hdistinct _ (hmem a ha) _ (hmem b hb)
  rw [recordAt_key, recordAt_key] at hkeys
  exact hkeys

end Shuffle

end M3bp
