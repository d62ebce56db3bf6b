import M3bp.KeyOrder
import M3bp.RadixCalls

/-!
Which records a call gets. As long as every block is a window of its key, a call
at depth `d` gets the records that agree with one of them in the first `d` bytes.
A record is taken beyond the end of its key if its class holds a longer key and
is passed on as a whole.
-/
namespace M3bp

/-- The first `d` bytes agree, with zeros behind the end of a key. -/
def AgreesTo (d : ℕ) (k k' : List UInt8) : Prop := ∀ i < d, k.getD i 0 = k'.getD i 0

instance (d : ℕ) (k k' : List UInt8) : Decidable (AgreesTo d k k') :=
  inferInstanceAs (Decidable (∀ i < d, _))

namespace AgreesTo

variable {d d' : ℕ} {k k' k'' : List UInt8}

theorem refl (d : ℕ) (k : List UInt8) : AgreesTo d k k := fun _ _ => rfl

theorem symm (h : AgreesTo d k k') : AgreesTo d k' k := fun i hi => (h i hi).symm

theorem trans (h : AgreesTo d k k') (h' : AgreesTo d k' k'') : AgreesTo d k k'' :=
  fun i hi => (h i hi).trans (h' i hi)

theorem mono (h : AgreesTo d k k') (hle : d' ≤ d) : AgreesTo d' k k' :=
  fun i hi => h i (hi.trans_le hle)

theorem zero (k k' : List UInt8) : AgreesTo 0 k k' := fun i hi => absurd hi (Nat.not_lt_zero i)

theorem succ_iff : AgreesTo (d + 1) k k' ↔ AgreesTo d k k' ∧ k.getD d 0 = k'.getD d 0 := by
  constructor
  · exact fun h => ⟨h.mono (Nat.le_succ d), h d (Nat.lt_succ_self d)⟩
  · rintro ⟨h, hd⟩ i hi
    rcases Nat.lt_succ_iff_lt_or_eq.mp hi with hlt | rfl
    · exact h i hlt
    · exact hd

end AgreesTo

namespace RadixSort

variable {ρ : Type} {view : KeyView ρ} {key : ρ → List UInt8} {S : List ρ} {d d' m : ℕ} {r r' : ρ}

/-- The records that agree with `r` in the first `d` bytes. -/
def keyClass (key : ρ → List UInt8) (S : List ρ) (d : ℕ) (r : ρ) : List ρ :=
  S.filter fun x => AgreesTo d (key x) (key r)

theorem mem_keyClass {x : ρ} : x ∈ keyClass key S d r ↔ x ∈ S ∧ AgreesTo d (key x) (key r) := by
  simp [keyClass]

theorem keyClass_keyClass (h : d ≤ d') :
    keyClass key (keyClass key S d r) d' r = keyClass key S d' r := by
  rw [keyClass, keyClass, keyClass, List.filter_filter]
  refine List.filter_congr fun x _ => ?_
  rw [← Bool.decide_and]
  exact decide_eq_decide.mpr ⟨fun hx => hx.1, fun hx => ⟨hx, hx.mono h⟩⟩

theorem length_keyClass_le (h : d ≤ d') :
    (keyClass key S d' r).length ≤ (keyClass key S d r).length := by
  rw [← keyClass_keyClass h]
  exact List.length_filter_le _ _

/-- The sort asks for a block of `r` that starts behind the end of its key. -/
def Overrun (key : ρ → List UInt8) (S : List ρ) (r : ρ) : Prop :=
  let m := (key r).length / 8
  (∃ x ∈ keyClass key S (8 * m) r, 8 * m < (key x).length) ∧
    (2 ≤ (keyClass key S (8 * m + 8) r).length ∨
      radixSortThreshold ≤ (keyClass key S (8 * m + 7) r).length)

/-! Blocks and their bytes. -/

theorem block_eq_iff (hshows : Shows view key) (hr : 8 * m ≤ (key r).length)
    (hr' : 8 * m ≤ (key r').length) (hagree : AgreesTo (8 * m) (key r) (key r')) :
    view.block r (8 * m) = view.block r' (8 * m) ↔ AgreesTo (8 * m + 8) (key r) (key r') := by
  rw [← UInt64.toNat_inj, hshows.block r m hr, hshows.block r' m hr']
  constructor
  · intro h i hi
    by_cases hlt : i < 8 * m
    · exact hagree i hlt
    · have hwindow := KeyBlock.bigEndian_injective (by simp [KeyBlock.window]) h
      have hbyte := congrArg (fun l => l.getD (i - 8 * m) 0) hwindow
      simp only [getD_window _ (show i - 8 * m < 8 by omega)] at hbyte
      rwa [show 8 * m + (i - 8 * m) = i by omega] at hbyte
  · intro h
    have hwindow : KeyBlock.window (key r) m = KeyBlock.window (key r') m := by
      refine List.map_congr_left fun i hi => h _ ?_
      have hi' : i < 8 := by simpa using hi
      omega
    rw [hwindow]

theorem bigEndian_digit (l : List UInt8) (j : ℕ) (hj : j < l.length) :
    KeyBlock.bigEndian l / 256 ^ (l.length - 1 - j) % 256 = (l.getD j 0).toNat := by
  have hsplit : l = l.take j ++ l[j] :: l.drop (j + 1) := by
    rw [← List.drop_eq_getElem_cons hj, List.take_append_drop]
  have hrest := KeyBlock.bigEndian_lt (l.drop (j + 1))
  have hlength : (l.drop (j + 1)).length = l.length - 1 - j := by
    rw [List.length_drop]
    omega
  have hbyte : (l[j]).toNat < 256 := (l[j]).toNat_lt
  have hvalue : KeyBlock.bigEndian l =
      256 ^ (l.length - 1 - j) * (KeyBlock.bigEndian (l.take j) * 256 + (l[j]).toNat) +
        KeyBlock.bigEndian (l.drop (j + 1)) := by
    conv_lhs => rw [hsplit]
    rw [KeyBlock.bigEndian, List.foldl_append, KeyBlock.foldl_bigEndian, KeyBlock.bigEndian_cons,
      List.length_cons, hlength, ← KeyBlock.bigEndian]
    ring
  rw [hlength] at hrest
  rw [hvalue, Nat.mul_add_div (by positivity), Nat.div_eq_of_lt hrest, Nat.add_zero,
    List.getD_eq_getElem?_getD, List.getElem?_eq_getElem hj, Option.getD_some]
  omega

/-- The digit of a filled entry is a byte of its key. -/
theorem digit_eq_byte (hshows : Shows view key) {e : Entry ρ} {j : ℕ} (hj : j < 8)
    (hcache : e.cache = view.block e.pointer (8 * m)) (hreach : 8 * m ≤ (key e.pointer).length) :
    digit (8 * m + j) e = ((key e.pointer).getD (8 * m + j) 0).toNat := by
  have hlength : (KeyBlock.window (key e.pointer) m).length = 8 := by simp [KeyBlock.window]
  have hdigit := bigEndian_digit (KeyBlock.window (key e.pointer) m) j (by rwa [hlength])
  rw [hlength] at hdigit
  rw [digit_eq hj, hcache, hshows.block _ m hreach, ← getD_window _ hj, ← hdigit]

/-! The slices that a call passes on. -/

theorem mem_pieces {chunks : List (List (Entry ρ))} {o : ℕ} {s : Slices ρ}
    (h : s.primary = chunks.flatten) :
    (∀ p ∈ pieces (chunks.map List.length) o s, p.2.primary ∈ chunks) ∧
      ∀ c ∈ chunks, ∃ p ∈ pieces (chunks.map List.length) o s, p.2.primary = c := by
  induction chunks generalizing o s with
  | nil => simp [pieces]
  | cons c chunks ih =>
    rw [List.flatten_cons] at h
    have htake : (s.take c.length).primary = c := by simp [Slices.take, h]
    have hdrop : (s.drop c.length).primary = chunks.flatten := by simp [Slices.drop, h]
    obtain ⟨hmem, hmem'⟩ := @ih (o + c.length) (s.drop c.length) hdrop
    constructor
    · intro p hp
      rcases List.mem_cons.mp hp with rfl | hp
      · rw [htake]
        exact List.mem_cons_self
      · exact List.mem_cons_of_mem c (hmem p hp)
    · intro c' hc'
      rcases List.mem_cons.mp hc' with rfl | hc'
      · exact ⟨_, List.mem_cons_self, htake⟩
      · obtain ⟨p, hp, heq⟩ := hmem' c' hc'
        exact ⟨p, List.mem_cons_of_mem _ hp, heq⟩

/-! Calls whose blocks are windows so far. -/

/-- The records of a call are a class; in between two loads the caches are filled
from inside the keys, and some key of the class of the last load goes on. -/
structure ClassCall (view : KeyView ρ) (key : ρ → List UInt8) (S : List ρ) (c : Call ρ) : Prop where
  well : WellSliced c.slices
  parity : c.swapped = decide (c.depth % 2 = 1)
  members : ∀ r ∈ pointers c.slices, (pointers c.slices).Perm (keyClass key S c.depth r)
  caches : c.depth % 8 ≠ 0 →
    ∀ e ∈ c.slices.primary, e.cache = view.block e.pointer (8 * (c.depth / 8))
  reach : c.depth % 8 ≠ 0 → ∀ r ∈ pointers c.slices, 8 * (c.depth / 8) ≤ (key r).length
  longer : c.depth % 8 ≠ 0 → ∀ r ∈ pointers c.slices,
    ∃ x ∈ keyClass key S (8 * (c.depth / 8)) r, 8 * (c.depth / 8) < (key x).length

/-- No block that the call asks for starts behind the end of its key. -/
def StaysInside (key : ρ → List UInt8) (c : Call ρ) : Prop :=
  c.depth % 8 = 0 → ∀ r ∈ pointers c.slices, c.depth ≤ (key r).length

/-- A class call that goes on, with its caches filled. -/
structure OpenCall (view : KeyView ρ) (key : ρ → List UInt8) (S : List ρ) (depth : ℕ)
    (s : Slices ρ) : Prop where
  well : WellSliced s
  members : ∀ r ∈ pointers s, (pointers s).Perm (keyClass key S depth r)
  caches : ∀ e ∈ s.primary, e.cache = view.block e.pointer (8 * (depth / 8))
  reach : ∀ r ∈ pointers s, 8 * (depth / 8) ≤ (key r).length
  longer : ∀ r ∈ pointers s,
    ∃ x ∈ keyClass key S (8 * (depth / 8)) r, 8 * (depth / 8) < (key x).length

variable {c c' : Call ρ}

theorem exists_longer (hshows : Shows view key) {depth : ℕ} {s : Slices ρ}
    (h : ¬ isFinished view depth s = true) : ∃ x ∈ pointers s, depth < (key x).length := by
  unfold isFinished at h
  rw [List.all_eq_true] at h
  push Not at h
  obtain ⟨e, he, hlong⟩ := h
  refine ⟨e.pointer, List.mem_map.mpr ⟨e, he, rfl⟩, ?_⟩
  rw [hshows.length] at hlong
  simpa using hlong

theorem cache_loaded {depth : ℕ} {s : Slices ρ} (hdepth : depth % 8 = 0) :
    ∀ e ∈ (loaded view depth s).primary, e.cache = view.block e.pointer depth := by
  intro e he
  rw [loaded, if_pos hdepth] at he
  obtain ⟨i, hi, rfl⟩ := List.mem_iff_getElem.mp he
  simp [copyCache, loadWork]

theorem ClassCall.openCall (hshows : Shows view key) (h : ClassCall view key S c)
    (hstays : StaysInside key c) (hgo : ¬ (c.depth % 8 = 0 ∧ isFinished view c.depth c.slices = true)) :
    OpenCall view key S c.depth (loaded view c.depth c.slices) := by
  have hpointers := @pointers_loaded _ view c.depth _ h.well
  by_cases hdepth : c.depth % 8 = 0
  · have hround : 8 * (c.depth / 8) = c.depth := by omega
    refine ⟨h.well.loaded, ?_, ?_, ?_, ?_⟩
    · rw [hpointers]
      exact h.members
    · rw [hround]
      exact cache_loaded hdepth
    · rw [hpointers, hround]
      exact hstays hdepth
    · obtain ⟨x, hx, hlong⟩ := exists_longer hshows fun hfinished => hgo ⟨hdepth, hfinished⟩
      rw [hpointers, hround]
      exact fun r hr => ⟨x, (h.members r hr).mem_iff.mp hx, hlong⟩
  · have hsame : loaded view c.depth c.slices = c.slices := by rw [loaded, if_neg hdepth]
    rw [hsame]
    exact ⟨h.well, h.members, h.caches hdepth, h.reach hdepth, h.longer hdepth⟩

namespace OpenCall

variable {depth : ℕ} {s : Slices ρ}

theorem agree (h : OpenCall view key S depth s) (hr : r ∈ pointers s) (hr' : r' ∈ pointers s) :
    AgreesTo depth (key r) (key r') :=
  (mem_keyClass.mp ((h.members r' hr').mem_iff.mp hr)).2

theorem sub (h : OpenCall view key S depth s) (hr : r ∈ pointers s) (hle : depth ≤ d) :
    (keyClass key (pointers s) d r).Perm (keyClass key S d r) := by
  rw [← @keyClass_keyClass _ key S depth d r hle]
  exact (h.members r hr).filter _

/-- The caches tell the next window. -/
theorem cache_eq_iff (hshows : Shows view key) (h : OpenCall view key S depth s) {e e' : Entry ρ}
    (he : e ∈ s.primary) (he' : e' ∈ s.primary) :
    e.cache = e'.cache ↔ AgreesTo (8 * (depth / 8) + 8) (key e.pointer) (key e'.pointer) := by
  have hp : e.pointer ∈ pointers s := List.mem_map.mpr ⟨e, he, rfl⟩
  have hp' : e'.pointer ∈ pointers s := List.mem_map.mpr ⟨e', he', rfl⟩
  rw [h.caches e he, h.caches e' he']
  exact block_eq_iff hshows (h.reach _ hp) (h.reach _ hp') ((h.agree hp hp').mono (by omega))

theorem digit_eq_iff (hshows : Shows view key) (h : OpenCall view key S depth s) {e e' : Entry ρ}
    (he : e ∈ s.primary) (he' : e' ∈ s.primary) :
    digit depth e = digit depth e' ↔ AgreesTo (depth + 1) (key e.pointer) (key e'.pointer) := by
  have hp : e.pointer ∈ pointers s := List.mem_map.mpr ⟨e, he, rfl⟩
  have hp' : e'.pointer ∈ pointers s := List.mem_map.mpr ⟨e', he', rfl⟩
  have hj : depth % 8 < 8 := Nat.mod_lt _ (by decide)
  have hbyte := digit_eq_byte hshows hj (h.caches e he) (h.reach _ hp)
  have hbyte' := digit_eq_byte hshows hj (h.caches e' he') (h.reach _ hp')
  rw [Nat.div_add_mod] at hbyte hbyte'
  rw [hbyte, hbyte', UInt8.toNat_inj, AgreesTo.succ_iff]
  exact ⟨fun heq => ⟨h.agree hp hp', heq⟩, fun heq => heq.2⟩

/-- The runs of a sorted slice are the classes of the next window. -/
theorem runs (hshows : Shows view key) (h : OpenCall view key S depth s) {sorted : List (Entry ρ)}
    (hperm : sorted.Perm s.primary) (hle : sorted.Pairwise fun a b => a.cache ≤ b.cache) :
    ∃ runs : List (List (Entry ρ)), runs.flatten = sorted ∧ runs.map List.length = runLengths sorted ∧
      ∀ run ∈ runs, ∀ r ∈ run.map Entry.pointer,
        (run.map Entry.pointer).Perm (keyClass key S (8 * (depth / 8) + 8) r) := by
  obtain ⟨runs, hflatten, hlengths, hrun, hlt⟩ := exists_runs sorted hle
  refine ⟨runs, hflatten, hlengths, fun run hmem r hr => ?_⟩
  have hgrouped : MarkedSort.Grouped (fun e : Entry ρ => e.cache.toNat) sorted runs := by
    refine ⟨hflatten, fun g hg => (hrun g hg).1, fun g hg e he e' he' => ?_, hlt.imp ?_⟩
    · rw [(hrun g hg).2 e he e' he']
    · exact fun h e he e' he' => UInt64.lt_iff_toNat_lt.mp (h e he e' he')
  obtain ⟨g, hg, rfl⟩ := List.mem_iff_getElem.mp hmem
  obtain ⟨e, he, rfl⟩ := List.mem_map.mp hr
  have hentry : ∀ x ∈ sorted, x ∈ s.primary := fun x hx => hperm.mem_iff.mp hx
  have hmem := hentry e (hgrouped.mem_of_mem hg he)
  have hfilter := @MarkedSort.Grouped.eq_filter _ _ _ _ _ _ hgrouped g hg e he
    (fun x => AgreesTo (8 * (depth / 8) + 8) (key x.pointer) (key e.pointer))
    (fun x hx => by
      rw [decide_eq_true_iff, UInt64.toNat_inj]
      exact (h.cache_eq_iff hshows (hentry x hx) hmem).symm)
  have hpointers : (runs[g].map Entry.pointer).Perm
      (keyClass key (pointers s) (8 * (depth / 8) + 8) e.pointer) := by
    rw [← hfilter, keyClass, pointers, List.filter_map]
    exact (hperm.filter _).map _
  exact hpointers.trans (h.sub (List.mem_map.mpr ⟨e, hmem, rfl⟩) (by omega))

/-- The buckets are the classes of the next byte. -/
theorem bucket (hshows : Shows view key) (h : OpenCall view key S depth s) (i : ℕ) :
    ∀ r ∈ (s.primary.filter fun e => digit depth e = i).map Entry.pointer,
      ((s.primary.filter fun e => digit depth e = i).map Entry.pointer).Perm
        (keyClass key S (depth + 1) r) := by
  intro r hr
  obtain ⟨e, he, rfl⟩ := List.mem_map.mp hr
  obtain ⟨hmem, hdigit⟩ := List.mem_filter.mp he
  rw [decide_eq_true_iff] at hdigit
  have hsame : (s.primary.filter fun x => digit depth x = i).map Entry.pointer =
      keyClass key (pointers s) (depth + 1) e.pointer := by
    rw [keyClass, pointers, List.filter_map]
    refine congrArg (List.map Entry.pointer) (List.filter_congr fun x hx => decide_eq_decide.mpr ?_)
    rw [← hdigit]
    exact h.digit_eq_iff hshows hx hmem
  rw [hsame]
  exact h.sub (List.mem_map.mpr ⟨e, hmem, rfl⟩) (Nat.le_succ depth)

end OpenCall

end RadixSort

end M3bp
