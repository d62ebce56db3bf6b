import M3bp.KeyOverrun
import M3bp.RadixDelivery
import M3bp.RadixRename
import M3bp.RadixSortKeys

/-!
What `get_block` reads in the course of a sort. A block that starts inside its key
or at its end is read from the key alone. The others are eight bytes from behind
the key, and whether there are such blocks is decided by the keys.
-/
namespace M3bp

namespace KeyBlock

/-- The addresses that `get_block` reads behind the lengths. -/
def blockReads (mem : ByteMemory) (ptr k : ℕ) : List ℕ :=
  let keyLen := getKeyLength mem ptr
  let keyPtr := getKeyPointer ptr + k
  if 8 ≤ remaining keyLen k then (List.range 8).map fun i => keyPtr + i
  else ((List.range 8).filter fun i => k + i < keyLen).map fun i => keyPtr + i

/-- The block is the window of the key, and no other byte than those of the key
is read for it. -/
structure OwnWindow (mem : ByteMemory) (ptr k : ℕ) : Prop where
  value : (getBlock mem ptr k).toNat = bigEndian (window (keyAt mem ptr) (k / 8))
  reads : ∀ a ∈ blockReads mem ptr k,
    getKeyPointer ptr ≤ a ∧ a < getKeyPointer ptr + getKeyLength mem ptr

theorem ownWindow_iff {mem : ByteMemory} {ptr k : ℕ} (hk : k % 8 = 0) (hlast : k + 8 ≤ 2 ^ 64) :
    OwnWindow mem ptr k ↔ k ≤ getKeyLength mem ptr := by
  have hlength : getKeyLength mem ptr < 2 ^ 64 := ByteMemory.readWord_lt mem _
  have hround : 8 * (k / 8) = k := by omega
  constructor
  · intro h
    by_contra hlt
    -- the difference wraps, and the block is loaded from behind the key
    have hfast : 8 ≤ remaining (getKeyLength mem ptr) k := by
      unfold remaining
      omega
    have hread := (h.reads (getKeyPointer ptr + k) (by
      rw [blockReads, if_pos hfast]
      exact List.mem_map.mpr ⟨0, by decide, rfl⟩)).2
    omega
  · intro hle
    have hvalue := getBlock_toNat (hround ▸ hle) hlength
    rw [hround] at hvalue
    refine ⟨hvalue, fun a ha => ?_⟩
    have hrem : remaining (getKeyLength mem ptr) k = getKeyLength mem ptr - k := by
      unfold remaining
      omega
    rw [blockReads, hrem] at ha
    split at ha
    · obtain ⟨i, hi, rfl⟩ := List.mem_map.mp ha
      have hi' := List.mem_range.mp hi
      omega
    · obtain ⟨i, hi, rfl⟩ := List.mem_map.mp ha
      have hi' := of_decide_eq_true (List.mem_filter.mp hi).2
      omega

end KeyBlock

namespace RadixSort

variable {ρ : Type} {view view' : KeyView ρ} {key : ρ → List UInt8} {c c' : Call ρ}

instance (key : ρ → List UInt8) (S : List ρ) (r : ρ) : Decidable (Overrun key S r) :=
  inferInstanceAs (Decidable (_ ∧ _))

theorem subCalls_subset (h : WellSliced c.slices) (hc : c' ∈ subCalls view c) :
    ∀ r ∈ pointers c'.slices, r ∈ pointers c.slices := by
  have hpointers := @pointers_loaded _ view c.depth _ h
  rw [← hpointers]
  unfold subCalls at hc
  split at hc
  · cases hc
  split at hc
  · unfold runCalls at hc
    split at hc
    · cases hc
    · next sorted hsort =>
      obtain ⟨sorted', hsort', hperm, -⟩ := QuickSort.quickSort_spec
        ((loaded view c.depth c.slices).primary.length + 1) (loaded view c.depth c.slices).primary
        (by omega)
      obtain rfl : sorted = sorted' := Option.some.inj (hsort.symm.trans hsort')
      obtain ⟨p, hp, rfl⟩ := List.mem_map.mp hc
      intro r hr
      have hmem := pieces_subset p (List.mem_filter.mp hp).1 r hr
      exact (hperm.map Entry.pointer).mem_iff.mp hmem
  · unfold bucketCalls at hc
    have hloaded := @WellSliced.loaded _ view c.depth _ h
    obtain ⟨ends, work, hscatter, -, hperm, -, -⟩ := scatter_slices c.depth hloaded
    simp only [hscatter] at hc
    obtain ⟨p, hp, rfl⟩ := List.mem_map.mp hc
    intro r hr
    exact (hperm.map Entry.pointer).mem_iff.mp (pieces_subset p hp r hr)

/-- A call goes deeper only behind a key that goes on. -/
theorem depth_of_makes {s : Slices ρ} (hs : WellSliced s) (hmakes : Makes view ⟨0, false, 0, s⟩ c) :
    WellSliced c.slices ∧ c.swapped = decide (c.depth % 2 = 1) ∧
      (∀ r ∈ pointers c.slices, r ∈ pointers s) ∧
      (c.depth = 0 ∨ ∃ r ∈ pointers s, 8 * ((c.depth - 1) / 8) < view.keyLength r) := by
  induction hmakes with
  | refl => exact ⟨hs, rfl, fun r hr => hr, Or.inl rfl⟩
  | @tail c c' _ hc ih =>
    obtain ⟨hwell, hparity, hin, hlong⟩ := ih
    obtain ⟨hwell', hparity', -⟩ := subCalls_inside hwell hparity hc
    refine ⟨hwell', hparity', fun r hr => hin r (subCalls_subset hwell hc r hr), Or.inr ?_⟩
    unfold subCalls at hc
    split at hc
    · cases hc
    next hgo =>
    have hlonger : ∃ r ∈ pointers s, 8 * (c.depth / 8) < view.keyLength r := by
      by_cases hround : c.depth % 8 = 0
      · have hunfinished : ¬ isFinished view c.depth c.slices = true := fun h => hgo (Or.inr ⟨hround, h⟩)
        unfold isFinished at hunfinished
        rw [List.all_eq_true] at hunfinished
        push Not at hunfinished
        obtain ⟨e, he, hlt⟩ := hunfinished
        refine ⟨e.pointer, hin _ (List.mem_map.mpr ⟨e, he, rfl⟩), ?_⟩
        have hlt' : c.depth < view.keyLength e.pointer := by simpa using hlt
        omega
      · obtain ⟨r, hr, hlt⟩ := hlong.resolve_left (by omega)
        exact ⟨r, hr, by omega⟩
    obtain ⟨r, hr, hlt⟩ := hlonger
    refine ⟨r, hr, ?_⟩
    have hdepth : c'.depth = c.depth + 1 ∨ c'.depth = (c.depth + 8) / 8 * 8 := by
      split at hc
      · right
        unfold runCalls at hc
        split at hc
        · cases hc
        · obtain ⟨p, -, rfl⟩ := List.mem_map.mp hc
          rfl
      · left
        unfold bucketCalls at hc
        dsimp only at hc
        split at hc
        · cases hc
        · obtain ⟨p, -, rfl⟩ := List.mem_map.mp hc
          rfl
    omega

/-- Another view that shows the same keys of the records sorts them in the same
way where no block starts behind a key. -/
theorem msdRadixSort_eq (hshows : Shows view key) {s : Slices ρ} (hs : WellSliced s)
    (hlength : ∀ r ∈ pointers s, view'.keyLength r = (key r).length)
    (hblock : ∀ r ∈ pointers s, ∀ m, 8 * m ≤ (key r).length →
      (view'.block r (8 * m)).toNat = KeyBlock.bigEndian (KeyBlock.window (key r) m))
    (hno : ∀ r ∈ pointers s, ¬ Overrun key (pointers s) r) (fuel : ℕ) :
    ∀ c, Makes view ⟨0, false, 0, s⟩ c →
      msdRadixSort view' fuel c.depth c.swapped c.slices =
        msdRadixSort view fuel c.depth c.swapped c.slices := by
  induction fuel with
  | zero => exact fun _ _ => rfl
  | succ fuel ih =>
    intro c hmakes
    obtain ⟨hclass, hstays⟩ := stays_of_no_overrun hshows hs hno hmakes
    have hin : ∀ r ∈ pointers c.slices, r ∈ pointers s := fun r hr =>
      (mem_keyClass.mp ((hclass.members r hr).mem_iff.mp hr)).1
    refine msdRadixSort_congr hclass.well.work (fun e he => ?_) (fun hround e he => ?_) fun c' hc' => ?_
    · rw [hshows.length, hlength _ (hin _ (List.mem_map.mpr ⟨e, he, rfl⟩))]
    · have hmem : e.pointer ∈ pointers c.slices := List.mem_map.mpr ⟨e, he, rfl⟩
      have hinside := hstays hround e.pointer hmem
      have hdepth : 8 * (c.depth / 8) = c.depth := by omega
      rw [← hdepth] at hinside ⊢
      rw [← UInt64.toNat_inj, hshows.block _ _ hinside, hblock _ (hin _ hmem) _ hinside]
    · exact ih c' (hmakes.tail hc')

end RadixSort

namespace Shuffle

open RadixSort KeyBlock

/-- The arrays of `sort_records` with indices in place of the pointers. -/
def indexInput (n : ℕ) : Slices ℕ :=
  { equalsToLeft := List.replicate n false
    primary := (List.range n).map fun i => { cache := 0, pointer := i }
    work := List.replicate n { cache := 0, pointer := n } }

theorem wellSliced_indexInput (n : ℕ) : WellSliced (indexInput n) :=
  ⟨by simp [indexInput], by simp [indexInput]⟩

theorem pointers_indexInput (n : ℕ) : RadixSort.pointers (indexInput n) = List.range n := by
  have hid : (Entry.pointer ∘ fun i : ℕ => { cache := 0, pointer := i }) = id := rfl
  simp [RadixSort.pointers, indexInput, hid]

theorem map_getD_range (l : List ℕ) : (List.range l.length).map (fun i => l.getD i 0) = l := by
  refine List.ext_getElem (by simp) fun i hi hi' => ?_
  simp [List.getD_eq_getElem?_getD, List.getElem?_eq_getElem hi']

theorem rename_indexInput (pointers : List ℕ) :
    (indexInput pointers.length).rename (fun i => pointers.getD i 0) = sortInput pointers := by
  have hprimary : ((List.range pointers.length).map fun i => ({ cache := 0, pointer := i } : Entry ℕ)).map
      (Entry.rename fun i => pointers.getD i 0) =
      pointers.map fun ptr => { cache := 0, pointer := ptr } := by
    conv_rhs => rw [← map_getD_range pointers]
    rw [List.map_map, List.map_map]
    rfl
  simp only [Slices.rename, indexInput, sortInput, hprimary, List.map_replicate]
  simp [Entry.rename]

theorem wellSliced_sortInput (pointers : List ℕ) : WellSliced (sortInput pointers) :=
  ⟨by simp [sortInput], by simp [sortInput]⟩

theorem pointers_sortInput (pointers : List ℕ) : RadixSort.pointers (sortInput pointers) = pointers := by
  have hid : (Entry.pointer ∘ fun ptr : ℕ => { cache := 0, pointer := ptr }) = id := rfl
  simp [RadixSort.pointers, sortInput, hid]

/-- Two arrays of records come out in the same order and with the same marks. -/
def SortAlike (mem : ByteMemory) (pointers : List ℕ) (mem' : ByteMemory) (pointers' : List ℕ) : Prop :=
  ∃ n, ∀ fuel, n ≤ fuel → ∃ (order : List ℕ) (out out' : Slices ℕ),
    msdRadixSort (view mem) fuel 0 false (sortInput pointers) = some out ∧
    msdRadixSort (view mem') fuel 0 false (sortInput pointers') = some out' ∧
    order.Perm (List.range pointers.length) ∧
    RadixSort.pointers out = order.map (fun i => pointers.getD i 0) ∧
    RadixSort.pointers out' = order.map (fun i => pointers'.getD i 0) ∧
    out'.equalsToLeft = out.equalsToLeft

theorem overrun_map (key : ℕ → List UInt8) (pointers : List ℕ) {i : ℕ} :
    Overrun (fun i => key (pointers.getD i 0)) (List.range pointers.length) i ↔
      Overrun key pointers (pointers.getD i 0) := by
  have hclass : ∀ d, keyClass key pointers d (pointers.getD i 0) =
      (keyClass (fun i => key (pointers.getD i 0)) (List.range pointers.length) d i).map
        fun i => pointers.getD i 0 := by
    intro d
    rw [keyClass]
    conv_lhs => rw [← map_getD_range pointers]
    rw [List.filter_map]
    simp only [map_getD_range]
    rfl
  simp only [Overrun, hclass, List.length_map, List.mem_map, exists_exists_and_eq_and]

theorem sortAlike {mem mem' : ByteMemory} {pointers pointers' : List ℕ}
    (hno : ∀ ptr ∈ pointers, ¬ Overrun (keyAt mem) pointers ptr)
    (hkeys : pointers'.map (keyAt mem') = pointers.map (keyAt mem)) :
    SortAlike mem pointers mem' pointers' := by
  have hcount : pointers'.length = pointers.length := by simpa using congrArg List.length hkeys
  have hkey : ∀ i < pointers.length, keyAt mem' (pointers'.getD i 0) = keyAt mem (pointers.getD i 0) := by
    intro i hi
    have hget := congrArg (fun l : List (List UInt8) => l[i]?) hkeys
    simp only [List.getElem?_map, List.getElem?_eq_getElem hi,
      List.getElem?_eq_getElem (show i < pointers'.length by omega), Option.map_some,
      Option.some.injEq] at hget
    simpa [List.getD_eq_getElem?_getD, hi, show i < pointers'.length by omega] using hget
  -- the same sort, seen on the indices
  let f := fun i => pointers.getD i 0
  let f' := fun i => pointers'.getD i 0
  let key := fun i => keyAt mem (f i)
  have hshows : Shows ((view mem).rename f) key :=
    ⟨fun i => (shows_keyAt mem).length (f i), fun i => (shows_keyAt mem).block (f i)⟩
  have hindices := pointers_indexInput pointers.length
  have hmem : ∀ i ∈ RadixSort.pointers (indexInput pointers.length), i < pointers.length := by
    intro i hi
    rw [hindices] at hi
    exact List.mem_range.mp hi
  have hindex : ∀ i ∈ RadixSort.pointers (indexInput pointers.length),
      ¬ Overrun key (RadixSort.pointers (indexInput pointers.length)) i := by
    intro i hi hover
    have hlt := hmem i hi
    rw [hindices] at hover
    refine hno (f i) ?_ ((overrun_map (keyAt mem) pointers).mp hover)
    simp only [f, List.getD_eq_getElem?_getD, List.getElem?_eq_getElem hlt, Option.getD_some]
    exact List.getElem_mem hlt
  have hsame : ∀ fuel, msdRadixSort ((view mem').rename f') fuel 0 false (indexInput pointers.length) =
      msdRadixSort ((view mem).rename f) fuel 0 false (indexInput pointers.length) := by
    intro fuel
    refine msdRadixSort_eq hshows (wellSliced_indexInput _) ?_ ?_ hindex fuel _
      Relation.ReflTransGen.refl
    · intro i hi
      simp only [key, f, ← hkey i (hmem i hi)]
      exact (shows_keyAt mem').length (f' i)
    · intro i hi m hm
      simp only [key, f, ← hkey i (hmem i hi)] at hm ⊢
      exact (shows_keyAt mem').block (f' i) m hm
  obtain ⟨bound, hbound⟩ := exists_bound ((view mem).rename f) (indexInput pointers.length).primary
  refine ⟨8 * bound + 1, fun fuel hfuel => ?_⟩
  obtain ⟨out, hrun, hdelivers⟩ := keeps ((view mem).rename f) bound fuel 0 false
    (indexInput pointers.length) (wellSliced_indexInput _) rfl
    (fun e he => (hbound e he).trans (by omega)) (by omega) (by omega)
  have hperm := hdelivers.perm
  rw [hindices] at hperm
  refine ⟨RadixSort.pointers out, out.rename f, out.rename f', ?_, ?_, hperm, pointers_rename f out,
    pointers_rename f' out, rfl⟩
  · rw [← rename_indexInput, msdRadixSort_rename, hrun]
    rfl
  · have hinput := rename_indexInput pointers'
    rw [hcount] at hinput
    rw [← hinput, msdRadixSort_rename, hsame, hrun]
    rfl

/-- For the blocks that a sort asks for it is a question of lengths. -/
theorem ownWindow_iff_inside {mem : ByteMemory} {pointers : List ℕ}
    (hfits : ∀ ptr ∈ pointers, getKeyPointer ptr + getKeyLength mem ptr ≤ 2 ^ 64) {c : Call ℕ}
    (hmakes : Makes (view mem) ⟨0, false, 0, sortInput pointers⟩ c) (hround : c.depth % 8 = 0)
    (ptr : ℕ) : OwnWindow mem ptr c.depth ↔ c.depth ≤ (keyAt mem ptr).length := by
  obtain ⟨-, -, -, hdepth⟩ := depth_of_makes (wellSliced_sortInput pointers) hmakes
  have hlast : c.depth + 8 ≤ 2 ^ 64 := by
    rcases hdepth with hzero | ⟨r, hr, hlt⟩
    · omega
    · rw [pointers_sortInput] at hr
      have hfit := hfits r hr
      have hlt' : 8 * ((c.depth - 1) / 8) < getKeyLength mem r := hlt
      simp only [getKeyPointer] at hfit
      omega
  rw [ownWindow_iff hround hlast, ← (shows_keyAt mem).length]
  rfl

/-- Two records are enough to be taken too far. -/
theorem exists_not_ownWindow {mem : ByteMemory} {pointers : List ℕ}
    (hfits : ∀ ptr ∈ pointers, getKeyPointer ptr + getKeyLength mem ptr ≤ 2 ^ 64) {ptr : ℕ}
    (hptr : ptr ∈ pointers) (hover : Overrun (keyAt mem) pointers ptr) :
    ∃ c, Makes (view mem) ⟨0, false, 0, sortInput pointers⟩ c ∧ c.depth % 8 = 0 ∧
      ∃ ptr ∈ RadixSort.pointers c.slices, ¬ OwnWindow mem ptr c.depth := by
  have hpointers := pointers_sortInput pointers
  obtain ⟨c, hmakes, hoff⟩ := not_stays_of_overrun (shows_keyAt mem) (wellSliced_sortInput pointers)
    (hpointers.symm ▸ hptr) (by rwa [hpointers])
  unfold StaysInside at hoff
  push Not at hoff
  obtain ⟨hround, r, hr, hlt⟩ := hoff
  refine ⟨c, hmakes, hround, r, hr, fun hown => ?_⟩
  have hinside := (ownWindow_iff_inside hfits hmakes hround r).mp hown
  omega

/-- Every block is a window of its own key, and only the keys matter, if and only
if no record is taken beyond the end of its key. -/
theorem key_windows_iff (mem : ByteMemory) (pointers : List ℕ)
    (hfits : ∀ ptr ∈ pointers, getKeyPointer ptr + getKeyLength mem ptr ≤ 2 ^ 64) :
    ((∀ c, Makes (view mem) ⟨0, false, 0, sortInput pointers⟩ c → c.depth % 8 = 0 →
        ∀ ptr ∈ RadixSort.pointers c.slices, OwnWindow mem ptr c.depth) ∧
      ∀ mem' pointers', pointers'.map (keyAt mem') = pointers.map (keyAt mem) →
        SortAlike mem pointers mem' pointers') ↔
    ∀ ptr ∈ pointers, ¬ Overrun (keyAt mem) pointers ptr := by
  constructor
  · intro h ptr hptr hover
    obtain ⟨c, hmakes, hround, r, hr, hnot⟩ := exists_not_ownWindow hfits hptr hover
    exact hnot (h.1 c hmakes hround r hr)
  · intro hno
    have hno' : ∀ ptr ∈ RadixSort.pointers (sortInput pointers),
        ¬ Overrun (keyAt mem) (RadixSort.pointers (sortInput pointers)) ptr := by
      rwa [pointers_sortInput]
    refine ⟨fun c hmakes hround ptr hptr => ?_, fun mem' pointers' hkeys => sortAlike hno hkeys⟩
    obtain ⟨-, hstays⟩ := stays_of_no_overrun (shows_keyAt mem) (wellSliced_sortInput pointers) hno'
      hmakes
    exact (ownWindow_iff_inside hfits hmakes hround ptr).mpr (hstays hround ptr hptr)

theorem key_windows_iff_twoRecords :
    ((∀ c, Makes (view twoRecords) ⟨0, false, 0, sortInput [0, 100]⟩ c → c.depth % 8 = 0 →
        ∀ ptr ∈ RadixSort.pointers c.slices, OwnWindow twoRecords ptr c.depth) ∧
      ∀ mem' pointers', pointers'.map (keyAt mem') = [0, 100].map (keyAt twoRecords) →
        SortAlike twoRecords [0, 100] mem' pointers') ↔
    ∀ ptr ∈ [0, 100], ¬ Overrun (keyAt twoRecords) [0, 100] ptr :=
  key_windows_iff twoRecords [0, 100] (by decide)

/-- Two records with the key "a" and different values. -/
def equalKeys : ByteMemory := fun x =>
  if x = 0 ∨ x = 100 then 2
  else if x = 8 ∨ x = 108 then 1
  else if x = 16 ∨ x = 116 then 97
  else if x = 17 then 1
  else if x = 117 then 2
  else 0

theorem not_key_windows :
    ¬ ∀ c, Makes (view equalKeys) ⟨0, false, 0, sortInput [0, 100]⟩ c → c.depth % 8 = 0 →
      ∀ ptr ∈ RadixSort.pointers c.slices, OwnWindow equalKeys ptr c.depth := by
  intro h
  obtain ⟨c, hmakes, hround, r, hr, hnot⟩ := @exists_not_ownWindow equalKeys [0, 100] (by decide) 0
    (by decide) (by decide)
  exact hnot (h c hmakes hround r hr)

end Shuffle

end M3bp
