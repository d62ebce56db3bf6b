import M3bp.ShuffleOutput

/-!
What the groups of a shuffle are. The groups of a partition are the records whose
blocks are the same, so they are the records of one key exactly when the blocks
tell the keys of the partition apart. They do unless some key reads like a
shorter one with zeros behind it.
-/
namespace M3bp.Shuffle

open MarkedSort (groupsOf)

/-- The records that a group has been made from. -/
def SortedPartition.sources (mem : ByteMemory) (out : SortedPartition) (g : ℕ) : List Record :=
  ((groupsOf out.sorted).getD g []).map (recordAt mem)

/-- Every key has one group, made from all its records and no others. -/
structure GroupsByExactKey (P : ℕ) (records : List Record) (mem : ByteMemory)
    (out : ℕ → SortedPartition) : Prop where
  once : ∀ r ∈ records, ∃! pg : ℕ × ℕ, pg.1 < P ∧ pg.2 < (out pg.1).buffer.groupCount ∧
    (out pg.1).buffer.groupKey pg.2 = r.key
  sources : ∀ p < P, ∀ g < (out p).buffer.groupCount,
    ((out p).sources mem g).Perm (records.filter fun r => r.key = (out p).buffer.groupKey g)
  values : ∀ p < P, ∀ g < (out p).buffer.groupCount,
    (out p).buffer.groupValues g = ((out p).sources mem g).flatMap Record.value
  present : ∀ p < P, ∀ g < (out p).buffer.groupCount,
    ∃ r ∈ records, r.key = (out p).buffer.groupKey g

/-- Two records of a partition show the same blocks if and only if they have the
same key. -/
def TellsKeysApart (mem : ByteMemory) (pointers : List ℕ) : Prop :=
  ∀ a ∈ pointers, ∀ b ∈ pointers,
    blocks mem pointers a = blocks mem pointers b ↔ KeyBlock.keyAt mem a = KeyBlock.keyAt mem b

theorem recordAt_key {mem : ByteMemory} (ptr : ℕ) :
    (recordAt mem ptr).key = KeyBlock.keyAt mem ptr := by
  simp only [recordAt]

theorem recordAt_value {mem : ByteMemory} (ptr : ℕ) : (recordAt mem ptr).value = valueAt mem ptr := by
  simp only [recordAt]

namespace SortsPartition

variable {mem : ByteMemory} {pointers : List ℕ} {out : SortedPartition}

theorem mem_pointers (h : SortsPartition mem pointers out) {g a : ℕ}
    (hg : g < (groupsOf out.sorted).length) (ha : a ∈ (groupsOf out.sorted)[g]) : a ∈ pointers :=
  h.perm.mem_iff.mp (h.grouped.mem_of_mem hg ha)

theorem exists_index (h : SortsPartition mem pointers out) {a : ℕ} (ha : a ∈ pointers) :
    ∃ (g : ℕ) (hg : g < (groupsOf out.sorted).length), a ∈ (groupsOf out.sorted)[g] :=
  h.grouped.exists_index (h.perm.mem_iff.mpr ha)

/-- The record that gives a group its key. -/
theorem exists_head (h : SortsPartition mem pointers out) {g : ℕ}
    (hg : g < (groupsOf out.sorted).length) :
    ∃ a ∈ (groupsOf out.sorted)[g], out.buffer.groupKey g = KeyBlock.keyAt mem a := by
  have hne := h.grouped.nonempty _ (List.getElem_mem hg)
  obtain ⟨a, l, hcons⟩ := List.exists_cons_of_ne_nil hne
  refine ⟨a, by simp [hcons], ?_⟩
  rw [h.holds.groupKey g hg, hcons, headKey, List.head?_cons, Option.map_some, Option.getD_some]

theorem sources_eq {g : ℕ} (hg : g < (groupsOf out.sorted).length) :
    out.sources mem g = (groupsOf out.sorted)[g].map (recordAt mem) := by
  rw [SortedPartition.sources, List.getD_eq_getElem?_getD, List.getElem?_eq_getElem hg,
    Option.getD_some]

theorem groupValues_eq (h : SortsPartition mem pointers out) {g : ℕ}
    (hg : g < (groupsOf out.sorted).length) :
    out.buffer.groupValues g = (out.sources mem g).flatMap Record.value := by
  rw [h.holds.groupValues g hg, sources_eq hg, List.flatMap_map, groupBytes]
  exact List.flatMap_congr fun a _ => (recordAt_value a).symm

/-- Where the blocks tell keys apart, all records of a group have its key. -/
theorem keyAt_eq_groupKey (h : SortsPartition mem pointers out)
    (hapart : TellsKeysApart mem pointers) {g a : ℕ} (hg : g < (groupsOf out.sorted).length)
    (ha : a ∈ (groupsOf out.sorted)[g]) : KeyBlock.keyAt mem a = out.buffer.groupKey g := by
  obtain ⟨b, hb, hkey⟩ := h.exists_head hg
  have hsame := h.grouped.within _ (List.getElem_mem hg) a ha b hb
  rw [hkey]
  exact (hapart a (h.mem_pointers hg ha) b (h.mem_pointers hg hb)).mp hsame

theorem index_eq_of_groupKey (h : SortsPartition mem pointers out)
    (hapart : TellsKeysApart mem pointers) {g g' : ℕ} (hg : g < (groupsOf out.sorted).length)
    (hg' : g' < (groupsOf out.sorted).length)
    (hkey : out.buffer.groupKey g = out.buffer.groupKey g') : g = g' := by
  obtain ⟨a, ha, hkey_a⟩ := h.exists_head hg
  obtain ⟨b, hb, hkey_b⟩ := h.exists_head hg'
  refine h.grouped.index_eq hg hg' ha hb ?_
  exact (hapart a (h.mem_pointers hg ha) b (h.mem_pointers hg' hb)).mpr (by rw [← hkey_a, hkey, hkey_b])

theorem sources_perm (h : SortsPartition mem pointers out) (hapart : TellsKeysApart mem pointers)
    {g : ℕ} (hg : g < (groupsOf out.sorted).length) :
    (out.sources mem g).Perm
      ((pointers.map (recordAt mem)).filter fun r => r.key = out.buffer.groupKey g) := by
  obtain ⟨a, ha, hkey⟩ := h.exists_head hg
  have hblocks : ∀ x ∈ out.sorted.map Prod.fst,
      decide ((recordAt mem x).key = out.buffer.groupKey g) = true ↔
        blocks mem pointers x = blocks mem pointers a := by
    intro x hx
    rw [decide_eq_true_iff, recordAt_key, hkey]
    exact (hapart x (h.perm.mem_iff.mp hx) a (h.mem_pointers hg ha)).symm
  have hperm := h.perm.filter fun x => decide ((recordAt mem x).key = out.buffer.groupKey g)
  rw [h.grouped.eq_filter hg ha hblocks] at hperm
  have hmap := hperm.map (recordAt mem)
  rw [sources_eq hg, List.filter_map]
  simp only [Function.comp_def]
  exact hmap

end SortsPartition

section Partitions

variable {P : ℕ} {list : List Arrival} {mem : ByteMemory} {pointers : ℕ → List ℕ}
  {out : ℕ → SortedPartition}

theorem mem_partitionRecords {p : ℕ} {r : Record} :
    r ∈ partitionRecords P list p ↔ r ∈ recordsOf list ∧ keyPartition P r.key = p := by
  simp [partitionRecords]

theorem key_of_pointer (hrecords : ∀ p < P, (pointers p).map (recordAt mem) = partitionRecords P list p)
    {p a : ℕ} (hp : p < P) (ha : a ∈ pointers p) :
    recordAt mem a ∈ recordsOf list ∧ keyPartition P (KeyBlock.keyAt mem a) = p := by
  have hmem : recordAt mem a ∈ partitionRecords P list p := by
    rw [← hrecords p hp]
    exact List.mem_map_of_mem ha
  rw [← recordAt_key]
  exact mem_partitionRecords.mp hmem

theorem groupsByExactKey_of_apart (hP : 0 < P) (hP' : P < 2 ^ 32)
    (hrecords : ∀ p < P, (pointers p).map (recordAt mem) = partitionRecords P list p)
    (hsorts : ∀ p < P, SortsPartition mem (pointers p) (out p))
    (hapart : ∀ p < P, TellsKeysApart mem (pointers p)) :
    GroupsByExactKey P (recordsOf list) mem out := by
  have hcount : ∀ p < P, ∀ g, g < (out p).buffer.groupCount → g < (groupsOf (out p).sorted).length := by
    intro p hp g hg
    rw [← (hsorts p hp).holds.groupCount]
    exact hg
  -- the key of a group decides its partition
  have hpartition : ∀ p < P, ∀ g < (groupsOf (out p).sorted).length,
      keyPartition P ((out p).buffer.groupKey g) = p := by
    intro p hp g hg
    obtain ⟨a, ha, hkey⟩ := (hsorts p hp).exists_head hg
    rw [hkey]
    exact (key_of_pointer hrecords hp ((hsorts p hp).mem_pointers hg ha)).2
  refine ⟨?_, ?_, ?_, ?_⟩
  · intro r hr
    have hp : keyPartition P r.key < P := HashFunction.hashByteSequence_lt r.key hP hP'
    have hmem : r ∈ (pointers (keyPartition P r.key)).map (recordAt mem) := by
      rw [hrecords _ hp]
      exact mem_partitionRecords.mpr ⟨hr, rfl⟩
    obtain ⟨a, ha, rfl⟩ := List.mem_map.mp hmem
    obtain ⟨g, hg, hag⟩ := (hsorts _ hp).exists_index ha
    have hkey := (hsorts _ hp).keyAt_eq_groupKey (hapart _ hp) hg hag
    rw [← recordAt_key] at hkey
    refine ⟨⟨keyPartition P (recordAt mem a).key, g⟩, ⟨hp, ?_, hkey.symm⟩, ?_⟩
    · simp only
      rw [(hsorts _ hp).holds.groupCount]
      exact hg
    · rintro ⟨p, g'⟩ ⟨hp', hg', hkey'⟩
      simp only at hp' hg' hkey'
      have hg'' := hcount p hp' g' hg'
      have hpeq := hpartition p hp' g' hg''
      rw [hkey'] at hpeq
      subst hpeq
      have hgeq := (hsorts _ hp).index_eq_of_groupKey (hapart _ hp) hg'' hg (hkey'.trans hkey)
      rw [hgeq]
  · intro p hp g hg
    have hg' := hcount p hp g hg
    have hperm := (hsorts p hp).sources_perm (hapart p hp) hg'
    rw [hrecords p hp, partitionRecords, List.filter_filter] at hperm
    have hfilter : (recordsOf list).filter (fun r => decide (r.key = (out p).buffer.groupKey g) &&
        decide (keyPartition P r.key = p)) =
        (recordsOf list).filter fun r => r.key = (out p).buffer.groupKey g := by
      refine List.filter_congr fun r _ => ?_
      by_cases hr : r.key = (out p).buffer.groupKey g
      · rw [hr, hpartition p hp g hg']
        simp
      · simp [hr]
    rw [hfilter] at hperm
    exact hperm
  · exact fun p hp g hg => (hsorts p hp).groupValues_eq (hcount p hp g hg)
  · intro p hp g hg
    have hg' := hcount p hp g hg
    obtain ⟨a, ha, hkey⟩ := (hsorts p hp).exists_head hg'
    refine ⟨recordAt mem a, (key_of_pointer hrecords hp ((hsorts p hp).mem_pointers hg' ha)).1, ?_⟩
    rw [recordAt_key, hkey]

theorem apart_of_groupsByExactKey
    (hrecords : ∀ p < P, (pointers p).map (recordAt mem) = partitionRecords P list p)
    (hsorts : ∀ p < P, SortsPartition mem (pointers p) (out p))
    (h : GroupsByExactKey P (recordsOf list) mem out) : ∀ p < P, TellsKeysApart mem (pointers p) := by
  intro p hp a ha b hb
  have hsort := hsorts p hp
  obtain ⟨g, hg, hag⟩ := hsort.exists_index ha
  obtain ⟨g', hg', hbg'⟩ := hsort.exists_index hb
  have hcount : ∀ g < (groupsOf (out p).sorted).length, g < (out p).buffer.groupCount := by
    intro g hg
    rw [hsort.holds.groupCount]
    exact hg
  -- the sources of a group all have its key
  have hkey : ∀ {g x : ℕ} (hg : g < (groupsOf (out p).sorted).length),
      x ∈ (groupsOf (out p).sorted)[g] → KeyBlock.keyAt mem x = (out p).buffer.groupKey g := by
    intro g x hg hx
    have hsource : recordAt mem x ∈ (out p).sources mem g := by
      rw [SortsPartition.sources_eq hg]
      exact List.mem_map_of_mem hx
    have hfilter := (h.sources p hp g (hcount g hg)).mem_iff.mp hsource
    have hkey := (List.mem_filter.mp hfilter).2
    rw [decide_eq_true_iff, recordAt_key] at hkey
    exact hkey
  refine ⟨fun hblocks => ?_, fun hkeys => ?_⟩
  · have heq := hsort.grouped.index_eq hg hg' hag hbg' hblocks
    subst heq
    rw [hkey hg hag, hkey hg hbg']
  · obtain ⟨pg, -, honly⟩ := h.once _ (key_of_pointer hrecords hp ha).1
    rw [recordAt_key] at honly
    have hfirst := honly (p, g) ⟨hp, hcount g hg, (hkey hg hag).symm⟩
    have hsecond := honly (p, g') ⟨hp, hcount g' hg', (hkey hg' hbg').symm.trans hkeys.symm⟩
    have heq : g = g' := congrArg Prod.snd (hfirst.trans hsecond.symm)
    subst heq
    exact hsort.grouped.within _ (List.getElem_mem hg) a hag b hbg'

end Partitions

/-- Keys none of which reads like another one with zeros behind it. -/
theorem tellsKeysApart_of_distinct {mem : ByteMemory} {pointers : List ℕ}
    (h : ∀ a ∈ pointers, ∀ b ∈ pointers,
      ¬ ZeroExtends (KeyBlock.keyAt mem a) (KeyBlock.keyAt mem b)) : TellsKeysApart mem pointers := by
  intro a ha b hb
  refine RadixSort.windows_eq_iff (shows_keyAt mem) h ?_ ha hb
  intro c hc
  have hle := @keyLength_le_max mem _ _ hc
  have hlength : (KeyBlock.keyAt mem c).length = KeyBlock.getKeyLength mem c := by
    simp [KeyBlock.keyAt]
  omega

/-- Two keys that read the same in every window that is looked at. -/
theorem windows_eq_of_zeroExtends {mem : ByteMemory} {a b m fuel : ℕ} {S : List ℕ}
    (h : ZeroExtends (KeyBlock.keyAt mem a) (KeyBlock.keyAt mem b))
    (hshort : ∀ c ∈ S,
      (KeyBlock.keyAt mem c).length ≤ 8 * ((KeyBlock.keyAt mem a).length / 8 + 1)) :
    RadixSort.windows (KeyBlock.view mem) fuel m S a =
      RadixSort.windows (KeyBlock.view mem) fuel m S b := by
  induction fuel generalizing m S with
  | zero => rfl
  | succ fuel ih =>
    obtain ⟨-, hlength, hbytes⟩ := h
    have hshows := shows_keyAt mem
    rw [RadixSort.windows, RadixSort.windows]
    by_cases hfinished : ∀ x ∈ S, (KeyBlock.view mem).keyLength x ≤ 8 * m
    · rw [if_pos hfinished, if_pos hfinished]
    · have hm : m ≤ (KeyBlock.keyAt mem a).length / 8 := by
        by_contra hlt
        refine hfinished fun x hx => ?_
        rw [hshows.length x]
        have hx' := hshort x hx
        omega
      have hwindow : KeyBlock.window (KeyBlock.keyAt mem a) m =
          KeyBlock.window (KeyBlock.keyAt mem b) m := by
        refine List.map_congr_left fun i hi => hbytes _ ?_
        have hi' : i < 8 := by simpa using hi
        omega
      have hblock : (KeyBlock.view mem).block a (8 * m) = (KeyBlock.view mem).block b (8 * m) := by
        refine UInt64.toNat_inj.mp ?_
        rw [hshows.block a m (by omega), hshows.block b m (by omega), hwindow]
      rw [if_neg hfinished, if_neg hfinished, hblock]
      exact congrArg _ (ih (fun c hc => hshort c (List.mem_filter.mp hc).1))

theorem not_tellsKeysApart {mem : ByteMemory} {pointers : List ℕ} {a b : ℕ} (ha : a ∈ pointers)
    (hb : b ∈ pointers) (h : ZeroExtends (KeyBlock.keyAt mem a) (KeyBlock.keyAt mem b))
    (hshort : ∀ c ∈ pointers,
      (KeyBlock.keyAt mem c).length ≤ 8 * ((KeyBlock.keyAt mem a).length / 8 + 1)) :
    ¬ TellsKeysApart mem pointers := fun hapart =>
  h.1 ((hapart a ha b hb).mp (windows_eq_of_zeroExtends h hshort))

/-- A run over all partitions, seen from the records that were put in. -/
theorem sorts_all {P : ℕ} (hP : 0 < P) (hP' : P < 2 ^ 32) (arrivals : Arrivals P)
    (mem₀ : ByteMemory) (dst : ℕ → GroupedBuffer) :
    let mem := memoryAfter P arrivals.list mem₀
    let bases := arrivals.list.map Arrival.base
    ∃ (pointers : ℕ → List ℕ) (out : ℕ → SortedPartition), ∀ p < P,
      collectPointers mem P p bases = some (pointers p) ∧
      sortRecords mem P bases p (dst p) = some (out p) ∧
      (pointers p).map (recordAt mem) = partitionRecords P arrivals.list p ∧
      SortsPartition mem (pointers p) (out p) := by
  intro mem bases
  have hall : ∀ p, ∃ (pointers : List ℕ) (out : SortedPartition), p < P →
      collectPointers mem P p bases = some pointers ∧
      sortRecords mem P bases p (dst p) = some out ∧
      pointers.map (recordAt mem) = partitionRecords P arrivals.list p ∧
      SortsPartition mem pointers out := by
    intro p
    by_cases hp : p < P
    · obtain ⟨pointers, out, h⟩ := sortRecords_spec hP hP' arrivals mem₀ hp (dst p)
      exact ⟨pointers, out, fun _ => h⟩
    · exact ⟨[], { sorted := [], buffer := dst p }, fun h => absurd h hp⟩
  choose pointers out h using hall
  exact ⟨pointers, out, h⟩

/-- No key of a partition is read as another key of that partition that ends
earlier in the same window or goes on with zeros. -/
def NoZeroExtension (P : ℕ) (list : List Arrival) : Prop :=
  ∀ p < P, ∀ r ∈ partitionRecords P list p, ∀ r' ∈ partitionRecords P list p,
    ¬ ZeroExtends r.key r'.key

/-- Some partition has two such keys, and no key goes on behind the window in
which the shorter one ends. -/
def EndsInZeros (P : ℕ) (list : List Arrival) : Prop :=
  ∃ p < P, ∃ r ∈ partitionRecords P list p, ∃ r' ∈ partitionRecords P list p,
    ZeroExtends r.key r'.key ∧
    ∀ r'' ∈ partitionRecords P list p, r''.key.length ≤ 8 * (r.key.length / 8 + 1)

theorem apart_of_noZeroExtension {P : ℕ} {list : List Arrival} {mem : ByteMemory}
    {pointers : ℕ → List ℕ}
    (hrecords : ∀ p < P, (pointers p).map (recordAt mem) = partitionRecords P list p)
    (h : NoZeroExtension P list) : ∀ p < P, TellsKeysApart mem (pointers p) := by
  intro p hp
  refine tellsKeysApart_of_distinct fun a ha b hb => ?_
  have hmem : ∀ c ∈ pointers p, recordAt mem c ∈ partitionRecords P list p := by
    intro c hc
    rw [← hrecords p hp]
    exact List.mem_map_of_mem hc
  have hdistinct := h p hp _ (hmem a ha) _ (hmem b hb)
  rw [recordAt_key, recordAt_key] at hdistinct
  exact hdistinct

theorem not_apart_of_endsInZeros {P : ℕ} {list : List Arrival} {mem : ByteMemory}
    {pointers : ℕ → List ℕ}
    (hrecords : ∀ p < P, (pointers p).map (recordAt mem) = partitionRecords P list p)
    (h : EndsInZeros P list) : ¬ ∀ p < P, TellsKeysApart mem (pointers p) := by
  obtain ⟨p, hp, r, hr, r', hr', hextends, hshort⟩ := h
  rw [← hrecords p hp] at hr hr' hshort
  obtain ⟨a, ha, rfl⟩ := List.mem_map.mp hr
  obtain ⟨b, hb, rfl⟩ := List.mem_map.mp hr'
  rw [recordAt_key, recordAt_key] at hextends
  refine fun hapart => not_tellsKeysApart ha hb hextends (fun c hc => ?_) (hapart p hp)
  have hc' := hshort _ (List.mem_map_of_mem hc)
  rw [recordAt_key, recordAt_key] at hc'
  exact hc'

/-- The groups are those of the exact keys if and only if the blocks that the
sort loads tell the keys of every partition apart. -/
theorem groups_by_exact_key_iff {P : ℕ} (hP : 0 < P) (hP' : P < 2 ^ 32) (arrivals : Arrivals P)
    (mem₀ : ByteMemory) (dst : ℕ → GroupedBuffer) :
    let mem := memoryAfter P arrivals.list mem₀
    let bases := arrivals.list.map Arrival.base
    ∃ (pointers : ℕ → List ℕ) (out : ℕ → SortedPartition),
      (∀ p < P, collectPointers mem P p bases = some (pointers p)) ∧
      (∀ p < P, sortRecords mem P bases p (dst p) = some (out p)) ∧
      (GroupsByExactKey P (recordsOf arrivals.list) mem out ↔
        ∀ p < P, TellsKeysApart mem (pointers p)) ∧
      (NoZeroExtension P arrivals.list → GroupsByExactKey P (recordsOf arrivals.list) mem out) ∧
      (EndsInZeros P arrivals.list → ¬ GroupsByExactKey P (recordsOf arrivals.list) mem out) := by
  intro mem bases
  obtain ⟨pointers, out, h⟩ := sorts_all hP hP' arrivals mem₀ dst
  have hrecords := fun p hp => (h p hp).2.2.1
  have hsorts := fun p hp => (h p hp).2.2.2
  have hiff : GroupsByExactKey P (recordsOf arrivals.list) mem out ↔
      ∀ p < P, TellsKeysApart mem (pointers p) :=
    ⟨apart_of_groupsByExactKey hrecords hsorts, groupsByExactKey_of_apart hP hP' hrecords hsorts⟩
  refine ⟨pointers, out, fun p hp => (h p hp).1, fun p hp => (h p hp).2.1, hiff, ?_, ?_⟩
  · exact fun hdistinct => hiff.mpr (apart_of_noZeroExtension hrecords hdistinct)
  · exact fun hzeros hgroups => not_apart_of_endsInZeros hrecords hzeros (hiff.mp hgroups)

/-- Two records, of the keys "a" and "a\0". -/
def zeroTail : KeyValueFragment :=
  { recordCount := 2
    valuesData := fun x => [97, 1, 97, 0, 2].getD x 0
    valuesOffsets := fun i => [0, 2, 5].getD i 5
    keyLengths := fun i => [1, 2].getD i 0
    offsets_mono := by decide
    keyLengths_le := by decide
    fits := by decide }

def zeroTailArrivals : Arrivals 1 :=
  { list := [{ fragment := zeroTail, base := 0 }], apart := List.pairwise_singleton _ _ }

theorem groups_by_exact_key_iff_zeroTail :
    let mem := memoryAfter 1 zeroTailArrivals.list fun _ => 0
    let bases := zeroTailArrivals.list.map Arrival.base
    ∃ (pointers : ℕ → List ℕ) (out : ℕ → SortedPartition),
      (∀ p < 1, collectPointers mem 1 p bases = some (pointers p)) ∧
      (∀ p < 1, sortRecords mem 1 bases p emptyBuffer = some (out p)) ∧
      (GroupsByExactKey 1 (recordsOf zeroTailArrivals.list) mem out ↔
        ∀ p < 1, TellsKeysApart mem (pointers p)) ∧
      (NoZeroExtension 1 zeroTailArrivals.list →
        GroupsByExactKey 1 (recordsOf zeroTailArrivals.list) mem out) ∧
      (EndsInZeros 1 zeroTailArrivals.list →
        ¬ GroupsByExactKey 1 (recordsOf zeroTailArrivals.list) mem out) :=
  groups_by_exact_key_iff (by decide) (by decide) zeroTailArrivals (fun _ => 0)
    fun _ => emptyBuffer

/-- The keys "a" and "a\0" become one group. -/
theorem not_groups_by_exact_key :
    let mem := memoryAfter 1 zeroTailArrivals.list fun _ => 0
    let bases := zeroTailArrivals.list.map Arrival.base
    ∃ out : ℕ → SortedPartition,
      (∀ p < 1, sortRecords mem 1 bases p emptyBuffer = some (out p)) ∧
      ¬ GroupsByExactKey 1 (recordsOf zeroTailArrivals.list) mem out := by
  intro mem bases
  obtain ⟨pointers, out, h⟩ :=
    sorts_all (by decide) (by decide) zeroTailArrivals (fun _ => 0) fun _ => emptyBuffer
  refine ⟨out, fun p hp => (h p hp).2.1, fun hgroups => ?_⟩
  have hrecords := fun p hp => (h p hp).2.2.1
  have hzero : ∀ key, keyPartition 1 key = 0 := fun key =>
    Nat.lt_one_iff.mp (HashFunction.hashByteSequence_lt key (by decide) (by decide))
  have hall : ∀ r ∈ recordsOf zeroTailArrivals.list,
      r ∈ partitionRecords 1 zeroTailArrivals.list 0 := fun r hr =>
    mem_partitionRecords.mpr ⟨hr, hzero r.key⟩
  have hshort : ∀ r ∈ recordsOf zeroTailArrivals.list, r.key.length ≤ 8 := by decide
  have hzeros : EndsInZeros 1 zeroTailArrivals.list := by
    refine ⟨0, Nat.one_pos, zeroTail.record 0, hall _ (by decide), zeroTail.record 1,
      hall _ (by decide), by decide, fun r hr => ?_⟩
    have hkey := hshort r (mem_partitionRecords.mp hr).1
    exact hkey.trans (by decide)
  exact not_apart_of_endsInZeros hrecords hzeros
    (apart_of_groupsByExactKey hrecords (fun p hp => (h p hp).2.2.2) hgroups)

end M3bp.Shuffle
