import M3bp.ShuffleGrouping

/-!
Two shuffles whose outputs are joined by merging. If no key is a proper prefix of
another one, the groups of each partition come in the order of their keys, and
what they hold depends only on the records that were put in, not on the fragments
they came in or on when those arrived.
-/
namespace M3bp.Shuffle

/-- One of the two shuffles: what arrives, in what order and in what memory. -/
structure Side (P : ℕ) where
  arrivals : Arrivals P
  mem₀ : ByteMemory
  dst : ℕ → GroupedBuffer

namespace Side

variable {P : ℕ}

def records (s : Side P) : List Record := recordsOf s.arrivals.list

def mem (s : Side P) : ByteMemory := memoryAfter P s.arrivals.list s.mem₀

/-- `sort_records` has been run for every partition. -/
def Yields (s : Side P) (out : ℕ → SortedPartition) : Prop :=
  ∀ p < P, sortRecords s.mem P (s.arrivals.list.map Arrival.base) p (s.dst p) = some (out p)

end Side

/-- No key is a proper prefix of another key. -/
def PrefixFree (records : List Record) : Prop :=
  ∀ r ∈ records, ∀ r' ∈ records, r.key <+: r'.key → r.key = r'.key

instance (records : List Record) : Decidable (PrefixFree records) :=
  inferInstanceAs (Decidable (∀ r ∈ records, ∀ r' ∈ records, r.key <+: r'.key → r.key = r'.key))

def groupKeys (b : GroupedBuffer) : List (List UInt8) := (List.range b.groupCount).map b.groupKey

/-- The partitions of one side can be merged. -/
structure Ordered (P : ℕ) (records : List Record) (mem : ByteMemory)
    (out : ℕ → SortedPartition) : Prop where
  groups : GroupsByExactKey P records mem out
  increasing : ∀ p < P, (groupKeys (out p).buffer).Pairwise LexLt
  partition : ∀ p < P, ∀ key,
    key ∈ groupKeys (out p).buffer ↔ keyPartition P key = p ∧ ∃ r ∈ records, r.key = key

variable {P : ℕ}

theorem PrefixFree.noZeroExtension {list : List Arrival} (h : PrefixFree (recordsOf list)) :
    NoZeroExtension P list := by
  intro p _ r hr r' hr' hextends
  exact hextends.1 (h r (mem_partitionRecords.mp hr).1 r' (mem_partitionRecords.mp hr').1
    hextends.isPrefix)

theorem SortsPartition.groupKeys_pairwise {mem : ByteMemory} {pointers : List ℕ}
    {out : SortedPartition} (h : SortsPartition mem pointers out)
    (hdistinct : ∀ a ∈ pointers, ∀ b ∈ pointers,
      ¬ ZeroExtends (KeyBlock.keyAt mem a) (KeyBlock.keyAt mem b)) :
    (groupKeys out.buffer).Pairwise LexLt := by
  have hlength : ∀ c ∈ pointers, (KeyBlock.keyAt mem c).length ≤ 8 * maxKeyLength mem pointers := by
    intro c hc
    have hle := @keyLength_le_max mem _ _ hc
    have hlength : (KeyBlock.keyAt mem c).length = KeyBlock.getKeyLength mem c := by
      simp [KeyBlock.keyAt]
    omega
  rw [groupKeys, List.pairwise_map]
  refine List.pairwise_lt_range.imp_of_mem fun {g g'} hg hg' hlt => ?_
  rw [List.mem_range, h.holds.groupCount] at hg hg'
  obtain ⟨a, ha, hkey⟩ := h.exists_head hg
  obtain ⟨b, hb, hkey'⟩ := h.exists_head hg'
  have hblocks := h.grouped.lt_of_lt hg' hlt ha hb
  rw [hkey, hkey']
  exact (RadixSort.windows_lt_iff (shows_keyAt mem) hdistinct hlength (h.mem_pointers hg ha)
    (h.mem_pointers hg' hb)).mp hblocks

/-- One side. -/
theorem Side.ordered (hP : 0 < P) (hP' : P < 2 ^ 32) (s : Side P) (hfree : PrefixFree s.records) :
    ∃ out, s.Yields out ∧ Ordered P s.records s.mem out := by
  obtain ⟨pointers, out, h⟩ := sorts_all hP hP' s.arrivals s.mem₀ s.dst
  have hrecords := fun p hp => (h p hp).2.2.1
  have hsorts := fun p hp => (h p hp).2.2.2
  have hdistinct : NoZeroExtension P s.arrivals.list := PrefixFree.noZeroExtension hfree
  have hgroups := groupsByExactKey_of_apart hP hP' hrecords hsorts
    (apart_of_noZeroExtension hrecords hdistinct)
  refine ⟨out, fun p hp => (h p hp).2.1, hgroups, ?_, ?_⟩
  · intro p hp
    refine (hsorts p hp).groupKeys_pairwise fun a ha b hb => ?_
    have hmem : ∀ c ∈ pointers p, recordAt s.mem c ∈ partitionRecords P s.arrivals.list p := by
      intro c hc
      rw [← hrecords p hp]
      exact List.mem_map_of_mem hc
    have hab := hdistinct p hp _ (hmem a ha) _ (hmem b hb)
    rw [recordAt_key, recordAt_key] at hab
    exact hab
  · -- a group key is the key of a record of its partition
    have hpartition : ∀ p < P, ∀ key ∈ groupKeys (out p).buffer, keyPartition P key = p := by
      intro p hp key hkey
      obtain ⟨g, hg, rfl⟩ := List.mem_map.mp hkey
      rw [List.mem_range, (hsorts p hp).holds.groupCount] at hg
      obtain ⟨a, ha, hkey⟩ := (hsorts p hp).exists_head hg
      rw [hkey]
      exact (key_of_pointer hrecords hp ((hsorts p hp).mem_pointers hg ha)).2
    intro p hp key
    refine ⟨fun hkey => ⟨hpartition p hp key hkey, ?_⟩, ?_⟩
    · obtain ⟨g, hg, rfl⟩ := List.mem_map.mp hkey
      exact hgroups.present p hp g (List.mem_range.mp hg)
    · rintro ⟨hkp, r, hr, rfl⟩
      obtain ⟨⟨q, g⟩, ⟨hq, hg, hgroup⟩, -⟩ := hgroups.once r hr
      have hmem : r.key ∈ groupKeys (out q).buffer :=
        List.mem_map.mpr ⟨g, List.mem_range.mpr hg, hgroup⟩
      have hpq : p = q := hkp.symm.trans (hpartition q hq _ hmem)
      rw [hpq]
      exact hmem

/-- The groups of two runs have the same keys and the same values. -/
structure SameGroups (P : ℕ) (mem mem' : ByteMemory) (out out' : ℕ → SortedPartition) : Prop where
  keys : ∀ p < P, groupKeys (out' p).buffer = groupKeys (out p).buffer
  values : ∀ p < P, ∀ g < (out p).buffer.groupCount,
    (((out' p).sources mem' g).map Record.value).Perm (((out p).sources mem g).map Record.value)

theorem Ordered.sameGroups {records records' : List Record} {mem mem' : ByteMemory}
    {out out' : ℕ → SortedPartition} (h : Ordered P records mem out)
    (h' : Ordered P records' mem' out') (hperm : records'.Perm records) :
    SameGroups P mem mem' out out' := by
  have hkeys : ∀ p < P, groupKeys (out' p).buffer = groupKeys (out p).buffer := by
    intro p hp
    have hnodup : ∀ {l : List (List UInt8)}, l.Pairwise LexLt → l.Nodup := by
      intro l hl
      refine hl.imp ?_
      rintro k _ hlt rfl
      exact LexLt.irrefl k hlt
    have hsame : ∀ key, key ∈ groupKeys (out' p).buffer ↔ key ∈ groupKeys (out p).buffer := by
      intro key
      rw [h.partition p hp, h'.partition p hp]
      simp only [hperm.mem_iff]
    have hkeysPerm := (List.perm_ext_iff_of_nodup (hnodup (h'.increasing p hp))
      (hnodup (h.increasing p hp))).mpr hsame
    refine hkeysPerm.eq_of_pairwise ?_ (h'.increasing p hp) (h.increasing p hp)
    intro k k' _ _ hlt hgt
    exact absurd (hlt.trans hgt) (LexLt.irrefl k)
  refine ⟨hkeys, fun p hp g hg => ?_⟩
  have hcount : (out' p).buffer.groupCount = (out p).buffer.groupCount := by
    have hlength := congrArg List.length (hkeys p hp)
    simpa [groupKeys] using hlength
  have hkey : (out' p).buffer.groupKey g = (out p).buffer.groupKey g := by
    have hget := congrArg (fun l => l[g]?) (hkeys p hp)
    simpa [groupKeys, hcount, hg] using hget
  have hsources := h.groups.sources p hp g hg
  have hsources' := h'.groups.sources p hp g (by omega)
  rw [hkey] at hsources'
  exact (hsources'.trans ((hperm.filter _).trans hsources.symm)).map Record.value

/-- Both sides of a merge join, each run with other fragments and in another
order as well. -/
theorem merge_joinable (hP : 0 < P) (hP' : P < 2 ^ 32) (left right left' right' : Side P)
    (hfree : PrefixFree (left.records ++ right.records))
    (hleft : left'.records.Perm left.records) (hright : right'.records.Perm right.records) :
    ∃ outL outR outL' outR', left.Yields outL ∧ right.Yields outR ∧ left'.Yields outL' ∧
      right'.Yields outR' ∧ Ordered P left.records left.mem outL ∧
      Ordered P right.records right.mem outR ∧
      (∀ p < P, ∀ q < P, ∀ key, key ∈ groupKeys (outL p).buffer → key ∈ groupKeys (outR q).buffer →
        p = q) ∧
      SameGroups P left.mem left'.mem outL outL' ∧ SameGroups P right.mem right'.mem outR outR' := by
  have hfreeL : PrefixFree left.records := fun r hr r' hr' =>
    hfree r (List.mem_append_left _ hr) r' (List.mem_append_left _ hr')
  have hfreeR : PrefixFree right.records := fun r hr r' hr' =>
    hfree r (List.mem_append_right _ hr) r' (List.mem_append_right _ hr')
  have hfreeL' : PrefixFree left'.records := fun r hr r' hr' =>
    hfreeL r (hleft.mem_iff.mp hr) r' (hleft.mem_iff.mp hr')
  have hfreeR' : PrefixFree right'.records := fun r hr r' hr' =>
    hfreeR r (hright.mem_iff.mp hr) r' (hright.mem_iff.mp hr')
  obtain ⟨outL, hyieldsL, hL⟩ := left.ordered hP hP' hfreeL
  obtain ⟨outR, hyieldsR, hR⟩ := right.ordered hP hP' hfreeR
  obtain ⟨outL', hyieldsL', hL'⟩ := left'.ordered hP hP' hfreeL'
  obtain ⟨outR', hyieldsR', hR'⟩ := right'.ordered hP hP' hfreeR'
  refine ⟨outL, outR, outL', outR', hyieldsL, hyieldsR, hyieldsL', hyieldsR', hL, hR, ?_,
    hL.sameGroups hL' hleft, hR.sameGroups hR' hright⟩
  intro p hp q hq key hkeyL hkeyR
  rw [← ((hL.partition p hp key).mp hkeyL).1, ((hR.partition q hq key).mp hkeyR).1]

/-- One record, a key of one byte and a value of one byte. -/
def byteFragment (key value : UInt8) : KeyValueFragment :=
  { recordCount := 1
    valuesData := fun x => [key, value].getD x 0
    valuesOffsets := fun i => 2 * i
    keyLengths := fun _ => 1
    offsets_mono := by decide
    keyLengths_le := by decide
    fits := by decide }

def twoArrivals (first second : KeyValueFragment) (h : bufferSize 4 first ≤ 100) : Side 4 :=
  { arrivals :=
      { list := [{ fragment := first, base := 0 }, { fragment := second, base := 100 }]
        apart := by simp [h] }
    mem₀ := fun _ => 255
    dst := fun _ => emptyBuffer }

theorem merge_joinable_bytes :
    let left := twoArrivals (byteFragment 98 1) (byteFragment 97 2) (by decide)
    let right := twoArrivals (byteFragment 97 3) (byteFragment 97 4) (by decide)
    let left' := twoArrivals (byteFragment 97 2) (byteFragment 98 1) (by decide)
    let right' := twoArrivals (byteFragment 97 4) (byteFragment 97 3) (by decide)
    ∃ outL outR outL' outR', left.Yields outL ∧ right.Yields outR ∧ left'.Yields outL' ∧
      right'.Yields outR' ∧ Ordered 4 left.records left.mem outL ∧
      Ordered 4 right.records right.mem outR ∧
      (∀ p < 4, ∀ q < 4, ∀ key, key ∈ groupKeys (outL p).buffer → key ∈ groupKeys (outR q).buffer →
        p = q) ∧
      SameGroups 4 left.mem left'.mem outL outL' ∧ SameGroups 4 right.mem right'.mem outR outR' :=
  merge_joinable (by decide) (by decide) _ _ _ _ (by decide) (by decide) (by decide)

end M3bp.Shuffle
