import M3bp.ValueSortView
import Mathlib.Data.List.Permutation

/-!
Value sort within the groups, from the tables of offsets alone. Empty values at the end
of a group are taken together with those of the next one, but the bytes of every group
stay where they are: the offset of the value that comes next is always the offset of the
group that comes next.
-/
namespace M3bp.ValueSort

open Shuffle (Access emptyBuffer)

/-- Values that lie one after the other, and groups that begin and end between values. -/
structure ValueBoundaries (input : GroupedFragment) : Prop where
  first : input.buffer.valuesOffsets 0 = 0
  nondecreasing : ∀ i < input.buffer.recordCount,
    input.buffer.valuesOffsets i ≤ input.buffer.valuesOffsets (i + 1)
  inside : input.buffer.valuesOffsets input.buffer.recordCount ≤ input.layout.valuesDataSize
  boundary : ∀ g ≤ input.buffer.groupCount, ∃ i ≤ input.buffer.recordCount,
    input.buffer.groupOffsets g = input.buffer.valuesOffsets i

/-- What a buffer has to satisfy for its groups to be ranges of values, one after the other. -/
structure WellFormed (input : GroupedFragment) : Prop extends ValueBoundaries input where
  firstGroup : input.buffer.groupOffsets 0 = 0
  groups : ∀ g < input.buffer.groupCount,
    input.buffer.groupOffsets g ≤ input.buffer.groupOffsets (g + 1)

/-- Where the values begin that have bytes to point to. -/
def pointedTo (b : GroupedBuffer) : Set ℕ :=
  {p | ∃ i < b.recordCount, b.valuesOffsets i < b.valuesOffsets (i + 1) ∧ p = b.valuesOffsets i}

/-- `std::sort` by a comparator of pointers: where the comparator is a strict weak order of
what it is given, nothing is less than what stands before it. -/
def SortsBy (order : ValueOrder) (comparator : ℕ → ℕ → Bool) : Prop :=
  ∀ pairs : List (ℕ × ℕ),
    IsStrictWeakOrder {p // p ∈ pairs.map Prod.fst} (fun p q => comparator p q = true) →
      (order.sort pairs).Pairwise fun p q => comparator q.1 p.1 = false

/-- The non-empty values of group `g`. -/
def members (b : GroupedBuffer) (g : ℕ) : List ℕ :=
  (List.range b.recordCount).filter fun i =>
    b.groupOffsets g ≤ b.valuesOffsets i ∧ b.valuesOffsets (i + 1) ≤ b.groupOffsets (g + 1) ∧
      b.valuesOffsets i < b.valuesOffsets (i + 1)

/-- The bytes are the non-empty values of group `g`, in the order of the comparator. -/
def InOrder (comparator : ℕ → ℕ → Bool) (b : GroupedBuffer) (g : ℕ) (bytes : List UInt8) : Prop :=
  ∃ sorted : List ℕ, sorted.Perm (members b g) ∧
    sorted.Pairwise (fun i j => comparator (b.valuesOffsets j) (b.valuesOffsets i) = false) ∧
    bytes = (sorted.map (valueBytes b)).flatten

/-! How the output is touched. -/

def copyAccesses (input : GroupedBuffer) (s : CopyState) (p : ℕ × ℕ) : List Access :=
  [.valueBytes (s.valuesOffsets s.w) (input.valuesOffsets (p.2 + 1) - input.valuesOffsets p.2),
    .valueOffset s.w, .valueOffset (s.w + 1)]

def copiesAccesses (input : GroupedBuffer) (s : CopyState) : List (ℕ × ℕ) → List Access
  | [] => []
  | p :: rest => copyAccesses input s p ++ copiesAccesses input (copyValue input s p) rest

def groupAccesses (order : ValueOrder) (input : GroupedBuffer) (s : CopyState) (g : ℕ) :
    List Access :=
  match takeValues input.valuesOffsets (input.groupOffsets (g + 1)) (input.recordCount + 1) s.w with
  | none => []
  | some pairs => copiesAccesses input s (order.sort pairs)

def loopAccesses (order : ValueOrder) (input : GroupedBuffer) (s : CopyState) :
    List ℕ → List Access
  | [] => []
  | g :: rest =>
    groupAccesses order input s g ++
      match sortGroup order input s g with
      | none => []
      | some s' => loopAccesses order input s' rest

/-- All of `run`: the three `memcpy`s of the keys and the tables, the first offset, and the
loop. -/
def runAccesses (order : ValueOrder) (input : GroupedFragment) (dst : GroupedBuffer) : List Access :=
  let start : CopyState :=
    { w := 0
      valuesData := dst.valuesData
      valuesOffsets := Function.update dst.valuesOffsets 0 0 }
  .keyBytes 0 input.layout.keysDataSize ::
    (List.range (input.buffer.groupCount + 1)).map Access.keyOffset ++
    (List.range (input.buffer.groupCount + 1)).map Access.groupOffset ++
    .valueOffset 0 :: loopAccesses order input.buffer start (List.range input.buffer.groupCount)

variable {input : GroupedFragment}

/-- Values that lie one after the other have ascending offsets, and every group starts
with a value. -/
theorem wellFormed_of_holdsValues {groups : List (List (List UInt8))}
    (h : HoldsValues groups input.buffer)
    (hsize : groups.flatten.flatten.length ≤ input.layout.valuesDataSize) : WellFormed input := by
  have hcount := h.recordCount
  have hgroups := h.groupCount
  refine ⟨⟨?_, ?_, ?_, ?_⟩, ?_, ?_⟩
  · exact h.valuesOffsets 0 (Nat.zero_le _)
  · intro i hi
    exact h.mono (Nat.le_succ i) (by omega)
  · rw [hcount, h.valuesOffsets _ le_rfl, List.take_length]
    exact hsize
  · intro g hg
    have hle := firstValue_le groups g
    exact ⟨firstValue groups g, by omega, h.groupOffset (by omega)⟩
  · exact h.groupOffsets 0 (Nat.zero_le _)
  · intro g hg
    have hg' : g + 1 ≤ groups.length := by omega
    have hfirst : firstValue groups g ≤ firstValue groups (g + 1) := by
      have hsucc := firstValue_succ hg'
      omega
    rw [h.groupOffset (Nat.le_of_succ_le hg'), h.groupOffset hg']
    exact h.mono hfirst (firstValue_le groups (g + 1))

/-- What a shuffle hands over is well-formed. -/
theorem wellFormed_writeGroups {mem : ByteMemory} {sorted : List (ℕ × Bool)}
    (hhead : ∀ r ∈ sorted.head?, r.2 = false) (dst : GroupedBuffer) :
    WellFormed
      { layout := Shuffle.layoutFor mem sorted, buffer := Shuffle.writeGroups mem sorted dst } := by
  apply wellFormed_of_holdsValues (holdsValues_writeGroups hhead dst)
  have hround := le_alignCeil (Shuffle.sizingPass mem sorted).totalValueSize (show 0 < 8 by decide)
  rw [flatten_valuesOf, ← totalValueSize_eq, Shuffle.layoutFor, valuesDataSize_allocate]
  exact hround

theorem WellFormed.mono (h : WellFormed input) {i j : ℕ} (hij : i ≤ j)
    (hj : j ≤ input.buffer.recordCount) :
    input.buffer.valuesOffsets i ≤ input.buffer.valuesOffsets j := by
  induction j, hij using Nat.le_induction with
  | base => exact le_rfl
  | succ j _ ih =>
    have hstep := h.nondecreasing j hj
    have hbefore := ih (Nat.le_of_succ_le hj)
    exact hbefore.trans hstep

/-- A value that begins before a later offset shares its beginning with one that has bytes. -/
theorem WellFormed.pointedTo_of_lt (h : WellFormed input) {i m : ℕ}
    (hm : m ≤ input.buffer.recordCount)
    (hlt : input.buffer.valuesOffsets i < input.buffer.valuesOffsets m) (him : i ≤ m) :
    input.buffer.valuesOffsets i ∈ pointedTo input.buffer := by
  induction m, him using Nat.le_induction with
  | base => exact absurd hlt (Nat.lt_irrefl _)
  | succ m him ih =>
    have hle := h.mono him (Nat.le_of_succ_le hm)
    rcases Nat.eq_or_lt_of_le hle with heq | hlt'
    · refine ⟨m, hm, ?_, heq⟩
      rwa [← heq]
    · exact ih (Nat.le_of_succ_le hm) hlt'

/-- Where the next value stands when the groups before `g` are done: at the first one that
does not begin before group `g`. -/
structure AtGroup (b : GroupedBuffer) (g v : ℕ) : Prop where
  le : v ≤ b.recordCount
  offset : b.valuesOffsets v = b.groupOffsets g
  before : ∀ i < v, b.valuesOffsets i < b.groupOffsets g

theorem takeValues_lt {offsets : ℕ → ℕ} {groupEnd fuel v : ℕ} {pairs : List (ℕ × ℕ)}
    (h : takeValues offsets groupEnd fuel v = some pairs) : ∀ p ∈ pairs, p.1 < groupEnd := by
  induction fuel generalizing v pairs with
  | zero => simp [takeValues] at h
  | succ fuel ih =>
    unfold takeValues at h
    split at h
    case isTrue hlt =>
      obtain ⟨rest, hrest, hpairs⟩ := Option.bind_eq_some_iff.mp h
      obtain rfl := Option.some.inj hpairs
      intro p hp
      rcases List.mem_cons.mp hp with heq | hp
      · subst heq
        exact hlt
      · exact ih hrest p hp
    case isFalse =>
      obtain rfl := Option.some.inj h
      exact List.forall_mem_nil _

/-- The values that a group takes reach up to the next group exactly. -/
theorem takeValues_group (h : WellFormed input) {g v : ℕ} (hg : g < input.buffer.groupCount)
    (hv : AtGroup input.buffer g v) :
    ∃ n, takeValues input.buffer.valuesOffsets (input.buffer.groupOffsets (g + 1))
        (input.buffer.recordCount + 1) v =
          some ((List.range' v n).map fun i => (input.buffer.valuesOffsets i, i)) ∧
      AtGroup input.buffer (g + 1) (v + n) := by
  obtain ⟨k, hk, hboundary⟩ := h.boundary (g + 1) hg
  have hgroup := h.groups g hg
  have hvk : v ≤ k := by
    apply Nat.le_of_not_lt
    intro hlt
    have hbefore := hv.before k hlt
    omega
  obtain ⟨n, htake, hle, hstop⟩ := @takeValues_spec input.buffer.valuesOffsets
    (input.buffer.groupOffsets (g + 1)) (input.buffer.recordCount + 1) v k hvk (by omega)
    hboundary.le
  have hlast := h.mono hle hk
  refine ⟨n, htake, hle.trans hk, by omega, ?_⟩
  intro i hi
  rcases Nat.lt_or_ge i v with hiv | hiv
  · have hbefore := hv.before i hiv
    omega
  · have hmem : (input.buffer.valuesOffsets i, i) ∈
        (List.range' v n).map fun i => (input.buffer.valuesOffsets i, i) := by
      apply List.mem_map_of_mem
      exact List.mem_range'_1.mpr ⟨hiv, hi⟩
    exact takeValues_lt htake _ hmem

/-- Empty values aside, a group takes its members. -/
theorem filter_taken (h : WellFormed input) {g v n : ℕ} (hv : AtGroup input.buffer g v)
    (hn : AtGroup input.buffer (g + 1) (v + n)) :
    ((List.range' v n).filter fun i =>
      input.buffer.valuesOffsets i < input.buffer.valuesOffsets (i + 1)).Perm
        (members input.buffer g) := by
  have hrange : (List.range' v n).Nodup := List.nodup_range'
  have hcount : (List.range input.buffer.recordCount).Nodup := List.nodup_range
  apply (List.perm_ext_iff_of_nodup (hrange.filter _) (hcount.filter _)).mpr
  intro i
  simp only [List.mem_filter, List.mem_range'_1, List.mem_range, decide_eq_true_eq]
  have hlast := hn.le
  have hoffset := hv.offset
  have hend := hn.offset
  constructor
  · rintro ⟨⟨hlow, hhigh⟩, hbytes⟩
    have hbelow := h.mono hlow (by omega)
    have habove := h.mono (i := i + 1) hhigh hlast
    exact ⟨by omega, by omega, by omega, hbytes⟩
  · rintro ⟨hi, hlow, hhigh, hbytes⟩
    refine ⟨⟨?_, ?_⟩, hbytes⟩
    · apply Nat.le_of_not_lt
      intro hlt
      have hbefore := hv.before i hlt
      omega
    · apply Nat.lt_of_not_le
      intro hle
      have hmono := h.mono hle hi.le
      omega

/-- The bytes of the values from `v` on. -/
theorem sum_lengths (h : WellFormed input) {v n : ℕ} (hn : v + n ≤ input.buffer.recordCount) :
    ((List.range' v n).map fun i =>
      input.buffer.valuesOffsets (i + 1) - input.buffer.valuesOffsets i).sum =
        input.buffer.valuesOffsets (v + n) - input.buffer.valuesOffsets v := by
  induction n with
  | zero => simp
  | succ n ih =>
    have hbefore := h.mono (Nat.le_add_right v n) (by omega)
    have hstep := h.nondecreasing (v + n) (by omega)
    have hsum := ih (by omega)
    rw [List.range'_concat, List.map_append, List.sum_append, hsum]
    simp only [Nat.one_mul, List.map_cons, List.map_nil, List.sum_cons, List.sum_nil]
    have hassoc : v + (n + 1) = v + n + 1 := by omega
    rw [hassoc]
    omega

/-- A comparator that orders the values with bytes orders whatever a group takes. -/
theorem strictWeak_of_subset {comparator : ℕ → ℕ → Bool} {s t : Set ℕ} (hst : s ⊆ t)
    (h : IsStrictWeakOrder t fun p q => comparator p q = true) :
    IsStrictWeakOrder s fun p q => comparator p q = true :=
  inferInstanceAs (IsStrictWeakOrder s
    (Order.Preimage (Set.inclusion hst) fun p q : t => comparator p q = true))

/-- The bytes that a group writes, when its values are sorted. -/
def sortedBytes (order : ValueOrder) (b : GroupedBuffer) (pairs : List (ℕ × ℕ)) : List UInt8 :=
  ((order.sort pairs).map fun p => valueBytes b p.2).flatten

section Group

variable {order : ValueOrder} {comparator : ℕ → ℕ → Bool} {g v n : ℕ}

/-- The values from `v` on, as they are taken. -/
def takenFrom (b : GroupedBuffer) (v n : ℕ) : List (ℕ × ℕ) :=
  (List.range' v n).map fun i => (b.valuesOffsets i, i)

theorem fst_of_mem_sorted {b : GroupedBuffer} {p : ℕ × ℕ}
    (hp : p ∈ order.sort (takenFrom b v n)) : p.1 = b.valuesOffsets p.2 := by
  have hmem := (order.perm (takenFrom b v n)).mem_iff.mp hp
  obtain ⟨i, -, rfl⟩ := List.mem_map.mp hmem
  rfl

theorem sorted_perm (b : GroupedBuffer) :
    ((order.sort (takenFrom b v n)).map Prod.snd).Perm (List.range' v n) := by
  have hperm := (order.perm (takenFrom b v n)).map Prod.snd
  have hindices : (takenFrom b v n).map Prod.snd = List.range' v n := by
    rw [takenFrom, List.map_map]
    exact List.map_id _
  rwa [hindices] at hperm

theorem length_sortedBytes (h : WellFormed input) (hn : v + n ≤ input.buffer.recordCount) :
    (sortedBytes order input.buffer (takenFrom input.buffer v n)).length =
      input.buffer.valuesOffsets (v + n) - input.buffer.valuesOffsets v := by
  have hlengths : ((order.sort (takenFrom input.buffer v n)).map
      fun p => valueBytes input.buffer p.2).map List.length =
        ((order.sort (takenFrom input.buffer v n)).map Prod.snd).map fun i =>
          input.buffer.valuesOffsets (i + 1) - input.buffer.valuesOffsets i := by
    rw [List.map_map, List.map_map]
    exact List.map_congr_left fun p _ => length_valueBytes _ _
  have hsum := ((@sorted_perm order v n input.buffer).map fun i =>
    input.buffer.valuesOffsets (i + 1) - input.buffer.valuesOffsets i).sum_eq
  rw [sortedBytes, List.length_flatten, hlengths, hsum]
  exact sum_lengths h hn

/-- Leaving out the empty values changes no byte. -/
theorem flatten_filter (b : GroupedBuffer) (indices : List ℕ) :
    ((indices.filter fun i => b.valuesOffsets i < b.valuesOffsets (i + 1)).map
      (valueBytes b)).flatten = (indices.map (valueBytes b)).flatten := by
  have hempty : (fun i => decide (b.valuesOffsets i < b.valuesOffsets (i + 1))) =
      (fun bytes : List UInt8 => !bytes.isEmpty) ∘ valueBytes b := by
    funext i
    have hlength := length_valueBytes b i
    cases hbytes : valueBytes b i with
    | nil =>
      rw [hbytes] at hlength
      simp only [List.length_nil] at hlength
      simp [hbytes]
      omega
    | cons byte bytes =>
      rw [hbytes] at hlength
      simp only [List.length_cons] at hlength
      simp [hbytes]
      omega
  rw [hempty, ← List.filter_map]
  exact List.flatten_filter_not_isEmpty

/-- What the comparator is given for a group begins where some value with bytes does. -/
theorem strictWeak_taken (h : WellFormed input)
    (hn : AtGroup input.buffer (g + 1) (v + n))
    (hstrict : IsStrictWeakOrder (pointedTo input.buffer) fun p q => comparator p q = true) :
    IsStrictWeakOrder {p // p ∈ (takenFrom input.buffer v n).map Prod.fst} fun p q =>
      comparator p q = true := by
  apply strictWeak_of_subset (s := {p | p ∈ (takenFrom input.buffer v n).map Prod.fst}) _ hstrict
  intro p hp
  obtain ⟨pair, hpair, rfl⟩ := List.mem_map.mp hp
  obtain ⟨i, hi, rfl⟩ := List.mem_map.mp hpair
  have hlt := hn.before i (List.mem_range'_1.mp hi).2
  rw [← hn.offset] at hlt
  exact h.pointedTo_of_lt hn.le hlt (List.mem_range'_1.mp hi).2.le

theorem inOrder_sortedBytes (hsorts : SortsBy order comparator) (h : WellFormed input)
    (hv : AtGroup input.buffer g v) (hn : AtGroup input.buffer (g + 1) (v + n))
    (hstrict : IsStrictWeakOrder (pointedTo input.buffer) fun p q => comparator p q = true) :
    InOrder comparator input.buffer g
      (sortedBytes order input.buffer (takenFrom input.buffer v n)) := by
  have hpairwise := hsorts _ (strictWeak_taken h hn hstrict)
  have hindices : ((order.sort (takenFrom input.buffer v n)).map Prod.snd).Pairwise fun i j =>
      comparator (input.buffer.valuesOffsets j) (input.buffer.valuesOffsets i) = false := by
    apply List.pairwise_map.mpr
    apply hpairwise.imp_of_mem
    intro p q hp hq hless
    rwa [fst_of_mem_sorted hp, fst_of_mem_sorted hq] at hless
  refine ⟨((order.sort (takenFrom input.buffer v n)).map Prod.snd).filter fun i =>
    input.buffer.valuesOffsets i < input.buffer.valuesOffsets (i + 1), ?_, hindices.filter _, ?_⟩
  · have hperm := (@sorted_perm order v n input.buffer).filter fun i =>
      decide (input.buffer.valuesOffsets i < input.buffer.valuesOffsets (i + 1))
    exact hperm.trans (filter_taken h hv hn)
  · rw [flatten_filter, List.map_map]
    rfl

/-- Each copy stays inside when there is room for the bytes and the values of all. -/
theorem copiesAccesses_inside {b : GroupedBuffer} {count groups keys size : ℕ}
    (pairs : List (ℕ × ℕ)) (hpairs : ∀ p ∈ pairs, p.1 = b.valuesOffsets p.2)
    {bytes : List UInt8} {s : CopyState} (hs : Filled bytes s)
    (hbytes : (bytes ++ (pairs.map fun p => valueBytes b p.2).flatten).length ≤ size)
    (hcount : s.w + pairs.length ≤ count) :
    ∀ a ∈ copiesAccesses b s pairs, a.Inside (allocateGroupedBuffer count groups keys size) := by
  induction pairs generalizing bytes s with
  | nil => exact nofun
  | cons p pairs ih =>
    obtain ⟨offset, i⟩ := p
    have hoffset : offset = b.valuesOffsets i := hpairs (offset, i) List.mem_cons_self
    subst hoffset
    simp only [List.map_cons, List.flatten_cons, ← List.append_assoc] at hbytes
    rw [List.length_cons] at hcount
    have hround := le_alignCeil size (show 0 < 8 by decide)
    have hw : (copyValue b s (b.valuesOffsets i, i)).w = s.w + 1 := rfl
    intro a ha
    rcases List.mem_append.mp ha with ha | ha
    · have hlength := length_valueBytes b i
      rw [List.length_append, List.length_append] at hbytes
      have hstart := hs.offset
      simp only [copyAccesses, List.mem_cons, List.not_mem_nil, or_false] at ha
      rcases ha with rfl | rfl | rfl
      · simp only [Access.Inside, allocateGroupedBuffer]
        omega
      · simp only [Access.Inside, allocateGroupedBuffer]
        omega
      · simp only [Access.Inside, allocateGroupedBuffer]
        omega
    · exact ih (fun p hp => hpairs p (List.mem_cons_of_mem _ hp)) (hs.copyValue b i) hbytes
        (by omega) a ha

/-- After the first `g` groups: what has been written of each. -/
structure GroupsDone (comparator : ℕ → ℕ → Bool) (b : GroupedBuffer) (g : ℕ)
    (written : List (List UInt8)) (s : CopyState) : Prop where
  count : written.length = g
  inOrder : ∀ k (hk : k < written.length), InOrder comparator b k written[k]
  ends : ∀ k ≤ g, (written.take k).flatten.length = b.groupOffsets k
  filled : Filled written.flatten s
  next : AtGroup b g s.w

theorem GroupsDone.start (h : WellFormed input) (dst : GroupedBuffer) :
    GroupsDone comparator input.buffer 0 []
      { w := 0
        valuesData := dst.valuesData
        valuesOffsets := Function.update dst.valuesOffsets 0 0 } := by
  refine ⟨rfl, nofun, ?_, ⟨by simp, rfl, by simp⟩, ?_⟩
  · intro k hk
    obtain rfl := Nat.le_zero.mp hk
    exact h.firstGroup.symm
  · refine ⟨Nat.zero_le _, h.first.trans h.firstGroup.symm, ?_⟩
    intro i hi
    exact absurd hi (Nat.not_lt_zero i)

theorem GroupsDone.sortGroup (hsorts : SortsBy order comparator) (h : WellFormed input)
    (hstrict : IsStrictWeakOrder (pointedTo input.buffer) fun p q => comparator p q = true)
    (hg : g < input.buffer.groupCount) {written : List (List UInt8)} {s : CopyState}
    (hs : GroupsDone comparator input.buffer g written s) :
    ∃ s' bytes, ValueSort.sortGroup order input.buffer s g = some s' ∧
      GroupsDone comparator input.buffer (g + 1) (written ++ [bytes]) s' ∧
      ∀ a ∈ groupAccesses order input.buffer s g, a.Inside
        (allocateGroupedBuffer input.buffer.recordCount input.buffer.groupCount
          input.layout.keysDataSize input.layout.valuesDataSize) := by
  obtain ⟨n, htake, hnext⟩ := takeValues_group h hg hs.next
  let pairs := takenFrom input.buffer s.w n
  have hpairs : ∀ p ∈ order.sort pairs, p.1 = input.buffer.valuesOffsets p.2 :=
    fun p hp => fst_of_mem_sorted hp
  have hsame : (order.sort pairs).length = pairs.length := (order.perm pairs).length_eq
  have hlength : pairs.length = n := by simp [pairs, takenFrom]
  have hbytes := @length_sortedBytes _ order _ _ h hnext.le
  have hends := hs.ends g le_rfl
  rw [← hs.count, List.take_length, hs.count] at hends
  have hstart := hs.next.offset
  have hstop := hnext.offset
  have hgroup := h.groups g hg
  have hlast := h.mono hnext.le le_rfl
  have hinside := h.inside
  obtain ⟨hfilled, hw⟩ := hs.filled.foldl input.buffer (order.sort pairs) hpairs
  have hmoved : ((order.sort pairs).foldl (copyValue input.buffer) s).w = s.w + pairs.length := by
    omega
  have hall : (written ++ [sortedBytes order input.buffer pairs]).flatten.length =
      input.buffer.groupOffsets (g + 1) := by
    rw [List.flatten_append, List.flatten_singleton, List.length_append, hbytes]
    omega
  refine ⟨{ (order.sort pairs).foldl (copyValue input.buffer) s with w := s.w + pairs.length },
    sortedBytes order input.buffer pairs, ?_, ⟨?_, ?_, ?_, ?_, ?_⟩, ?_⟩
  · simp only [ValueSort.sortGroup, htake, Option.bind_eq_bind, Option.bind_some]
    rfl
  · rw [List.length_append, hs.count, List.length_singleton]
  · intro k hk
    rcases Nat.lt_or_ge k written.length with hlt | hge
    · rw [List.getElem_append_left hlt]
      exact hs.inOrder k hlt
    · rw [List.length_append, List.length_singleton] at hk
      have hkg : k = g := by
        have hcount := hs.count
        omega
      subst hkg
      rw [List.getElem_append_right hge]
      simp only [List.getElem_singleton]
      exact inOrder_sortedBytes hsorts h hs.next hnext hstrict
  · intro k hk
    rcases Nat.lt_or_eq_of_le hk with hlt | rfl
    · rw [List.take_append_of_le_length (by rw [hs.count]; omega)]
      exact hs.ends k (by omega)
    · rw [List.take_of_length_le (by rw [List.length_append, hs.count, List.length_singleton])]
      exact hall
  · refine ⟨?_, ?_, hfilled.first⟩
    · rw [List.flatten_append, List.flatten_singleton]
      simp only [← hmoved]
      exact hfilled.offset
    · rw [List.flatten_append, List.flatten_singleton]
      exact hfilled.data
  · simp only [hlength]
    exact hnext
  · simp only [groupAccesses, htake]
    apply copiesAccesses_inside (order.sort pairs) hpairs hs.filled
    · have hroom := hall
      rw [List.flatten_append, List.flatten_singleton] at hroom
      refine hroom.le.trans ?_
      omega
    · have hle := hnext.le
      omega

theorem GroupsDone.sortGroups (hsorts : SortsBy order comparator) (h : WellFormed input)
    (hstrict : IsStrictWeakOrder (pointedTo input.buffer) fun p q => comparator p q = true)
    {m : ℕ} (hgm : g + m ≤ input.buffer.groupCount) {written : List (List UInt8)} {s : CopyState}
    (hs : GroupsDone comparator input.buffer g written s) :
    ∃ s' written', (List.range' g m).foldlM (ValueSort.sortGroup order input.buffer) s = some s' ∧
      GroupsDone comparator input.buffer (g + m) written' s' ∧
      ∀ a ∈ loopAccesses order input.buffer s (List.range' g m), a.Inside
        (allocateGroupedBuffer input.buffer.recordCount input.buffer.groupCount
          input.layout.keysDataSize input.layout.valuesDataSize) := by
  induction m generalizing g s written with
  | zero => exact ⟨s, written, rfl, hs, nofun⟩
  | succ m ih =>
    obtain ⟨s₁, bytes, hstep, hs₁, hfirst⟩ := hs.sortGroup hsorts h hstrict (by omega)
    obtain ⟨s', written', hrun, hs', hrest⟩ := ih (by omega) hs₁
    have hsum : g + 1 + m = g + (m + 1) := by omega
    rw [hsum] at hs'
    refine ⟨s', written', ?_, hs', ?_⟩
    · rw [List.range'_succ, List.foldlM_cons, hstep]
      exact hrun
    · intro a ha
      simp only [List.range'_succ, loopAccesses, hstep] at ha
      rcases List.mem_append.mp ha with ha | ha
      · exact hfirst a ha
      · exact hrest a ha

end Group

/-- The copies before the loop. -/
theorem header_inside {a : Access} (count groups keys size : ℕ)
    (ha : a = .keyBytes 0 keys ∨ a ∈ (List.range (groups + 1)).map Access.keyOffset ∨
      a ∈ (List.range (groups + 1)).map Access.groupOffset ∨ a = .valueOffset 0) :
    a.Inside (allocateGroupedBuffer count groups keys size) := by
  have hkeys := le_alignCeil keys (show 0 < 8 by decide)
  rcases ha with rfl | ha | ha | rfl
  · simp only [Access.Inside, allocateGroupedBuffer]
    omega
  · obtain ⟨i, hi, rfl⟩ := List.mem_map.mp ha
    have hlt := List.mem_range.mp hi
    simp only [Access.Inside, allocateGroupedBuffer]
    omega
  · obtain ⟨i, hi, rfl⟩ := List.mem_map.mp ha
    have hlt := List.mem_range.mp hi
    simp only [Access.Inside, allocateGroupedBuffer]
    omega
  · simp only [Access.Inside, allocateGroupedBuffer]
    omega

/-- The copy has the keys and the groups of the input, and each group has its own values in
the order of the comparator. -/
structure SortsWithin (comparator : ℕ → ℕ → Bool) (input out : GroupedFragment) : Prop where
  groupCount : out.buffer.groupCount = input.buffer.groupCount
  keys : out.buffer.keysData.read 0 input.layout.keysDataSize =
    input.buffer.keysData.read 0 input.layout.keysDataSize
  keysOffsets : ∀ g ≤ input.buffer.groupCount, out.buffer.keysOffsets g = input.buffer.keysOffsets g
  groupOffsets : ∀ g ≤ input.buffer.groupCount,
    out.buffer.groupOffsets g = input.buffer.groupOffsets g
  values : ∀ g < input.buffer.groupCount,
    InOrder comparator input.buffer g (out.buffer.groupValues g)

/-- Every group is sorted within its range, and nothing is written outside the output. -/
theorem run_sorts_within (order : ValueOrder) (comparator : ℕ → ℕ → Bool)
    (hsorts : SortsBy order comparator) (input : GroupedFragment) (h : WellFormed input)
    (hstrict : IsStrictWeakOrder (pointedTo input.buffer) fun p q => comparator p q = true)
    (dst : GroupedBuffer) :
    ∃ out, run order input dst = some out ∧ SortsWithin comparator input out ∧
      ∀ a ∈ runAccesses order input dst, a.Inside out.layout := by
  obtain ⟨s, written, hrun, hs, hloop⟩ := (GroupsDone.start h dst).sortGroups hsorts h hstrict
    (m := input.buffer.groupCount) (by omega)
  rw [← List.range_eq_range'] at hrun hloop
  rw [Nat.zero_add] at hs
  have hout : run order input dst = some
      { layout := allocateGroupedBuffer input.buffer.recordCount input.buffer.groupCount
          input.layout.keysDataSize input.layout.valuesDataSize
        buffer :=
          { groupCount := input.buffer.groupCount
            recordCount := 0
            keysData := dst.keysData.write 0
              (input.buffer.keysData.read 0 input.layout.keysDataSize)
            keysOffsets := fun i =>
              if i < input.buffer.groupCount + 1 then input.buffer.keysOffsets i
              else dst.keysOffsets i
            valuesData := s.valuesData
            valuesOffsets := s.valuesOffsets
            groupOffsets := fun i =>
              if i < input.buffer.groupCount + 1 then input.buffer.groupOffsets i
              else dst.groupOffsets i } } := by
    simp only [run, Option.bind_eq_bind]
    rw [hrun]
    rfl
  have hoffset : ∀ k ≤ input.buffer.groupCount,
      (if k < input.buffer.groupCount + 1 then input.buffer.groupOffsets k
        else dst.groupOffsets k) = input.buffer.groupOffsets k :=
    fun k hk => if_pos (Nat.lt_succ_of_le hk)
  refine ⟨_, hout, ⟨rfl, ?_, ?_, ?_, ?_⟩, ?_⟩
  · have hread := ByteMemory.read_write dst.keysData 0
      (input.buffer.keysData.read 0 input.layout.keysDataSize)
    rwa [ByteMemory.length_read] at hread
  · intro g hg
    exact if_pos (Nat.lt_succ_of_le hg)
  · exact hoffset
  · intro g hg
    have hg' : g < written.length := by rwa [hs.count]
    have hpart := Shuffle.read_part hg' hs.filled.data
    rw [hs.ends g hg.le, hs.ends (g + 1) hg] at hpart
    simp only [GroupedBuffer.groupValues, hoffset g hg.le, hoffset (g + 1) hg]
    rw [hpart]
    exact hs.inOrder g hg'
  · intro a ha
    simp only [runAccesses] at ha
    rcases List.mem_append.mp ha with ha | ha
    · rcases List.mem_append.mp ha with ha | ha
      · rcases List.mem_cons.mp ha with ha | ha
        · exact header_inside _ _ _ _ (Or.inl ha)
        · exact header_inside _ _ _ _ (Or.inr (Or.inl ha))
      · exact header_inside _ _ _ _ (Or.inr (Or.inr (Or.inl ha)))
    · rcases List.mem_cons.mp ha with ha | ha
      · exact header_inside _ _ _ _ (Or.inr (Or.inr (Or.inr ha)))
      · exact hloop a ha

/-! A sort for every comparator. -/

theorem not_less_trans {α : Type} {less : α → α → Prop} (h : IsStrictWeakOrder α less) {a b c : α}
    (hab : ¬ less b a) (hbc : ¬ less c b) : ¬ less c a := by
  intro hca
  by_cases hba : less a b
  · exact hbc (h.trans c a b hca hba)
  by_cases hcb : less b c
  · exact hab (h.trans b c a hcb hca)
  · exact (h.incomp_trans a b c ⟨hba, hab⟩ ⟨hcb, hbc⟩).2 hca

/-- Sorting by a comparator, with nothing asked of it outside the list. -/
def sortedBy (comparator : ℕ → ℕ → Bool) : ValueOrder where
  sort pairs := (pairs.attach.mergeSort fun p q => !comparator q.1.1 p.1.1).map Subtype.val
  perm pairs := by
    have hperm := (List.mergeSort_perm pairs.attach fun p q => !comparator q.1.1 p.1.1).map
      Subtype.val
    rwa [List.attach_map_subtype_val] at hperm

theorem sortsBy_sortedBy (comparator : ℕ → ℕ → Bool) : SortsBy (sortedBy comparator) comparator := by
  intro pairs hstrict
  have hfst : ∀ p : {p // p ∈ pairs}, p.1.1 ∈ pairs.map Prod.fst :=
    fun p => List.mem_map_of_mem p.2
  have htrans : ∀ p q r : {p // p ∈ pairs}, (!comparator q.1.1 p.1.1) = true →
      (!comparator r.1.1 q.1.1) = true → (!comparator r.1.1 p.1.1) = true := by
    intro p q r hpq hqr
    have hnot := not_less_trans hstrict (a := ⟨_, hfst p⟩) (b := ⟨_, hfst q⟩)
      (c := ⟨_, hfst r⟩)
    simp only [Bool.not_eq_true', Bool.not_eq_true] at hpq hqr hnot ⊢
    exact hnot hpq hqr
  have htotal : ∀ p q : {p // p ∈ pairs},
      ((!comparator q.1.1 p.1.1) || !comparator p.1.1 q.1.1) = true := by
    intro p q
    have hthrough := hstrict.trans ⟨_, hfst p⟩ ⟨_, hfst q⟩ ⟨_, hfst p⟩
    have hirrefl := hstrict.irrefl ⟨_, hfst p⟩
    grind
  have hsorted := List.pairwise_mergeSort htrans htotal pairs.attach
  apply List.pairwise_map.mpr
  apply hsorted.imp
  intro p q hle
  simpa using hle

/-- Two groups with an empty value between them that is taken for one of the second. -/
def driftingValues : GroupedFragment where
  layout := allocateGroupedBuffer 4 2 2 3
  buffer :=
    { groupCount := 2
      recordCount := 4
      keysData := fun i => UInt8.ofNat i
      keysOffsets := fun i => i
      valuesData := fun i => [3, 1, 2].getD i 0
      valuesOffsets := fun i => [0, 1, 2, 2].getD i 3
      groupOffsets := fun g => [0, 2].getD g 3 }

/-- By the first byte. -/
def byteComparator (data : ByteMemory) (p q : ℕ) : Bool := data p < data q

theorem strictWeak_byteComparator (data : ByteMemory) (s : Set ℕ) :
    IsStrictWeakOrder s fun p q => byteComparator data p q = true where
  irrefl p := by simp [byteComparator]
  trans p q r hpq hqr := by
    simp only [byteComparator, decide_eq_true_eq, UInt8.lt_iff_toNat_lt] at hpq hqr ⊢
    omega
  incomp_trans p q r hpq hqr := by
    simp only [byteComparator, decide_eq_true_eq, UInt8.lt_iff_toNat_lt] at hpq hqr ⊢
    omega

/-- The order of the bytes of `driftingValues`. -/
def driftingOrder : ℕ → ℕ → Bool := byteComparator driftingValues.buffer.valuesData

theorem run_sorts_within_drifting :
    ∃ out, run (sortedBy driftingOrder) driftingValues emptyBuffer = some out ∧
      SortsWithin driftingOrder driftingValues out ∧
      ∀ a ∈ runAccesses (sortedBy driftingOrder) driftingValues emptyBuffer, a.Inside out.layout :=
  run_sorts_within (sortedBy driftingOrder) driftingOrder (sortsBy_sortedBy _) driftingValues
    ⟨⟨by decide, by decide, by decide, by decide⟩, by decide, by decide⟩
    (strictWeak_byteComparator _ _) emptyBuffer

/-- Two values of two bytes each, the greater one first, in groups with some offsets. -/
def twoValues (groupCount : ℕ) (groupOffsets : ℕ → ℕ) : GroupedFragment where
  layout := allocateGroupedBuffer 2 groupCount 0 4
  buffer :=
    { groupCount := groupCount
      recordCount := 2
      keysData := fun _ => 0
      keysOffsets := fun _ => 0
      valuesData := fun i => [9, 9, 1, 1].getD i 0
      valuesOffsets := fun i => [0, 2].getD i 4
      groupOffsets := groupOffsets }

theorem valueBoundaries_twoValues {n : ℕ} {groupOffsets : ℕ → ℕ}
    (h : ∀ g ≤ n, ∃ i ≤ 2, groupOffsets g = [0, 2].getD i 4) :
    ValueBoundaries (twoValues n groupOffsets) where
  first := rfl
  nondecreasing := by
    change ∀ i < 2, [0, 2].getD i 4 ≤ [0, 2].getD (i + 1) 4
    decide
  inside := by
    simp only [twoValues, valuesDataSize_allocate]
    decide
  boundary := h

/-- The one group begins behind the first value, which is sorted with it. -/
def lateGroup : GroupedFragment := twoValues 1 fun g => [2].getD g 4

/-- The last group begins where the first one has been already. -/
def recedingGroups : GroupedFragment := twoValues 3 fun g => [0, 4, 2].getD g 4

theorem sort_pair {order : ValueOrder} {comparator : ℕ → ℕ → Bool}
    (hsorts : SortsBy order comparator) {p q : ℕ × ℕ}
    (hstrict : IsStrictWeakOrder {a // a ∈ [p, q].map Prod.fst} fun a b => comparator a b = true)
    (hless : comparator q.1 p.1 = true) : order.sort [p, q] = [q, p] := by
  have hpairwise := hsorts [p, q] hstrict
  rcases List.perm_pair.mp (order.perm [p, q]) with hsame | hswapped
  · rw [hsame, List.pairwise_pair, hless] at hpairwise
    exact Bool.noConfusion hpairwise
  · exact hswapped

/-- The lesser value comes first, whatever the groups are. -/
theorem sort_twoValues {n : ℕ} {groupOffsets : ℕ → ℕ} {order : ValueOrder}
    (hsorts : SortsBy order (byteComparator (twoValues n groupOffsets).buffer.valuesData)) :
    order.sort [(0, 0), (2, 1)] = [(2, 1), (0, 0)] := by
  have hless : (1 : UInt8) < 9 := by decide
  exact sort_pair hsorts
    (strictWeak_byteComparator _ {a | a ∈ [(0, 0), (2, 1)].map (@Prod.fst ℕ ℕ)})
    (decide_eq_true hless)

/-- A group that begins late is given a value of another one. -/
theorem groupValues_lateGroup {order : ValueOrder}
    (hsorts : SortsBy order (byteComparator lateGroup.buffer.valuesData)) :
    (run order lateGroup emptyBuffer).map (fun out => out.buffer.groupValues 0) = some [9, 9] := by
  have hsort := sort_twoValues hsorts
  simp [run, lateGroup, twoValues, sortGroup, takeValues, hsort]
  decide

/-- So is one that begins before the end of the group before it. -/
theorem groupValues_recedingGroups {order : ValueOrder}
    (hsorts : SortsBy order (byteComparator recedingGroups.buffer.valuesData)) :
    (run order recedingGroups emptyBuffer).map (fun out => out.buffer.groupValues 2) =
      some [9, 9] := by
  have hsort := sort_twoValues hsorts
  have hnil : order.sort [] = [] := (order.perm []).eq_nil
  simp [run, recedingGroups, twoValues, List.range_succ, sortGroup, takeValues, hsort, hnil]
  decide

/-- The bytes of a group with one value are this value. -/
theorem InOrder.eq_of_members {comparator : ℕ → ℕ → Bool} {b : GroupedBuffer} {g i : ℕ}
    {bytes : List UInt8} (h : InOrder comparator b g bytes) (hmembers : members b g = [i]) :
    bytes = valueBytes b i := by
  obtain ⟨sorted, hperm, -, rfl⟩ := h
  rw [hmembers] at hperm
  rw [List.perm_singleton.mp hperm]
  simp

theorem not_sortsWithin {comparator : ℕ → ℕ → Bool} {order : ValueOrder} {input : GroupedFragment}
    {dst : GroupedBuffer} {g i : ℕ} {bytes : List UInt8} (hg : g < input.buffer.groupCount)
    (hmembers : members input.buffer g = [i]) (hne : bytes ≠ valueBytes input.buffer i)
    (hrun : (run order input dst).map (fun out => out.buffer.groupValues g) = some bytes) :
    ¬ ∃ out, run order input dst = some out ∧ SortsWithin comparator input out := by
  rintro ⟨out, hout, hsorted⟩
  have hvalue := (hsorted.values g hg).eq_of_members hmembers
  rw [hout, Option.map_some, hvalue] at hrun
  exact hne (Option.some.inj hrun).symm

/-- The groups lie between values, the comparator orders the values and the sort sorts, and
still some group does not get its own values. -/
def Misplaced (input : GroupedFragment) : Prop :=
  let comparator := byteComparator input.buffer.valuesData
  ValueBoundaries input ∧
    (IsStrictWeakOrder (pointedTo input.buffer) fun p q => comparator p q = true) ∧
    SortsBy (sortedBy comparator) comparator ∧
    ¬ ∃ out, run (sortedBy comparator) input emptyBuffer = some out ∧
      SortsWithin comparator input out

theorem not_sorts_within_boundaries : Misplaced lateGroup ∧ Misplaced recedingGroups := by
  have hlate : ValueBoundaries lateGroup := valueBoundaries_twoValues (by decide)
  have hreceding : ValueBoundaries recedingGroups := valueBoundaries_twoValues (by decide)
  refine ⟨⟨hlate, strictWeak_byteComparator _ _, sortsBy_sortedBy _, ?_⟩,
    hreceding, strictWeak_byteComparator _ _, sortsBy_sortedBy _, ?_⟩
  · exact not_sortsWithin (g := 0) (i := 1) (by decide) (by decide) (by decide)
      (groupValues_lateGroup (sortsBy_sortedBy _))
  · exact not_sortsWithin (g := 2) (i := 1) (by decide) (by decide) (by decide)
      (groupValues_recedingGroups (sortsBy_sortedBy _))

end M3bp.ValueSort
