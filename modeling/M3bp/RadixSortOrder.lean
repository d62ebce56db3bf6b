import M3bp.MarkedSort
import M3bp.RadixSort

/-!
The order in which the sort arranges records, whatever their keys are. Two
records are compared block by block, but the blocks at a depth are looked at only
if some record with the same earlier blocks has a key that is longer than the
depth. The sort arranges the records by these sequences of blocks and marks those
whose sequence is that of their left neighbour.
-/
namespace M3bp.RadixSort

open MarkedSort

variable {ρ : Type}

/-- The blocks of `r` that are looked at among the records `S`, which agree
before block `m`; at most `fuel` of them. -/
def windows (view : KeyView ρ) : ℕ → ℕ → List ρ → ρ → List ℕ
  | 0, _, _, _ => []
  | fuel + 1, m, S, r =>
    if ∀ x ∈ S, view.keyLength x ≤ 8 * m then
      []
    else
      (view.block r (8 * m)).toNat ::
        windows view fuel (m + 1) (S.filter fun x => view.block x (8 * m) = view.block r (8 * m)) r

/-- The same when block `m` is known to be looked at. -/
def activeWindows (view : KeyView ρ) (fuel m : ℕ) (S : List ρ) (r : ρ) : List ℕ :=
  (view.block r (8 * m)).toNat ::
    windows view fuel (m + 1) (S.filter fun x => view.block x (8 * m) = view.block r (8 * m)) r

variable {view : KeyView ρ} {fuel m : ℕ}

theorem windows_finished {S : List ρ} (h : ∀ x ∈ S, view.keyLength x ≤ 8 * m) (r : ρ) :
    windows view fuel m S r = [] := by
  cases fuel with
  | zero => rfl
  | succ fuel => rw [windows, if_pos h]

theorem windows_active {S : List ρ} (h : ¬ ∀ x ∈ S, view.keyLength x ≤ 8 * m) (r : ρ) :
    windows view (fuel + 1) m S r = activeWindows view fuel m S r := by
  rw [windows, if_neg h, activeWindows]

/-- Only the set of the records matters. -/
theorem windows_congr {S S' : List ρ} (h : ∀ x, x ∈ S ↔ x ∈ S') (r : ρ) :
    windows view fuel m S r = windows view fuel m S' r := by
  induction fuel generalizing m S S' with
  | zero => rfl
  | succ fuel ih =>
    have hfinished : (∀ x ∈ S, view.keyLength x ≤ 8 * m) ↔ ∀ x ∈ S', view.keyLength x ≤ 8 * m := by
      simp only [h]
    have hfilter : ∀ x, x ∈ S.filter (fun x => view.block x (8 * m) = view.block r (8 * m)) ↔
        x ∈ S'.filter fun x => view.block x (8 * m) = view.block r (8 * m) := by
      simp [List.mem_filter, h]
    simp only [windows, hfinished, ih hfilter]

theorem activeWindows_congr {S S' : List ρ} {r : ρ}
    (h : ∀ x, view.block x (8 * m) = view.block r (8 * m) → (x ∈ S ↔ x ∈ S')) :
    activeWindows view fuel m S r = activeWindows view fuel m S' r := by
  unfold activeWindows
  congr 1
  refine windows_congr (fun x => ?_) r
  simp only [List.mem_filter, decide_eq_true_eq]
  exact and_congr_left fun hx => h x hx

/-- Among the records of one class of block `m`, the later blocks decide. -/
theorem activeWindows_eq_cons {S C : List ρ} {r : ρ}
    (h : ∀ x, x ∈ C ↔ x ∈ S ∧ view.block x (8 * m) = view.block r (8 * m)) :
    activeWindows view fuel m S r =
      (view.block r (8 * m)).toNat :: windows view fuel (m + 1) C r := by
  unfold activeWindows
  congr 1
  exact windows_congr (fun x => by simp [h]) r

theorem activeWindows_lt {S S' : List ρ} {r r' : ρ}
    (h : view.block r (8 * m) < view.block r' (8 * m)) :
    activeWindows view fuel m S r < activeWindows view fuel m S' r' :=
  List.cons_lt_cons_iff.mpr (Or.inl (UInt64.lt_iff_toNat_lt.mp h))

/-! What a call does to its slices. -/

/-- The slices have one length, and nothing is marked yet. -/
structure Fresh (s : Slices ρ) : Prop where
  work : s.work.length = s.primary.length
  marks : s.equalsToLeft = List.replicate s.primary.length false

def pointers (s : Slices ρ) : List ρ := s.primary.map Entry.pointer

/-- The side that the sorted entries are left on. -/
def target (swapped : Bool) (s : Slices ρ) : List (Entry ρ) := if swapped then s.work else s.primary

structure SortsTo (w : ρ → List ℕ) (swapped : Bool) (s s' : Slices ρ) : Prop where
  primary : s'.primary.length = s.primary.length
  work : s'.work.length = s.primary.length
  sorted : Sorted w (pointers s) ((target swapped s').map Entry.pointer) s'.equalsToLeft

theorem SortsTo.of_nil {s : Slices ρ} (hs : Fresh s) (h : s.primary = []) (w : ρ → List ℕ)
    (swapped : Bool) : SortsTo w swapped s s := by
  obtain ⟨hwork, hmarks⟩ := hs
  have hnil : s.work = [] := by simpa [h] using hwork
  refine ⟨rfl, hwork, ?_⟩
  cases swapped <;>
    exact ⟨by simp [pointers, target, h, hnil], by simp [target, h, hnil],
      by simp [target, h, hnil, hmarks, leftMarks]⟩

/-- One entry is sorted. -/
theorem SortsTo.of_single {s : Slices ρ} (hs : Fresh s) (h : s.primary.length = 1)
    (w : ρ → List ℕ) : SortsTo w false s s := by
  obtain ⟨e, he⟩ := List.length_eq_one_iff.mp h
  refine ⟨rfl, hs.work, by simp [pointers, target], by simp [target, he], ?_⟩
  simp [hs.marks, target, he, leftMarks, tailMarks]

theorem SortsTo.congr {w w' : ρ → List ℕ} {swapped : Bool} {s s' : Slices ρ}
    (h : SortsTo w swapped s s')
    (hle : ∀ x ∈ pointers s, ∀ y ∈ pointers s, w x ≤ w y ↔ w' x ≤ w' y) :
    SortsTo w' swapped s s' :=
  ⟨h.primary, h.work, h.sorted.congr hle⟩

/-- A class of block `m` sorted by the later blocks. -/
theorem SortsTo.of_class {S : List ρ} {swapped : Bool} {s s' : Slices ρ}
    (h : SortsTo (windows view fuel (m + 1) (pointers s)) swapped s s')
    (hclass : ∀ r ∈ pointers s, ∀ x,
      x ∈ pointers s ↔ x ∈ S ∧ view.block x (8 * m) = view.block r (8 * m)) :
    SortsTo (activeWindows view fuel m S) swapped s s' := by
  refine h.congr fun x hx y hy => ?_
  have hblock : view.block y (8 * m) = view.block x (8 * m) := ((hclass x hx y).mp hy).2
  rw [activeWindows_eq_cons (hclass x hx), activeWindows_eq_cons (hclass y hy), hblock,
    ← not_lt, ← not_lt]
  exact not_congr (List.cons_lt_cons_iff.trans (by simp)).symm

/-- Adjacent slices, each sorted by a weight that increases from slice to slice. -/
theorem onSlices_spec (w : ρ → List ℕ) (swapped : Bool) {f : Slices ρ → Option (Slices ρ)}
    (chunks : List (List (Entry ρ))) (s : Slices ρ) (hs : Fresh s)
    (hprimary : s.primary = chunks.flatten)
    (hf : ∀ c ∈ chunks, ∀ t, Fresh t → t.primary = c → ∃ t', f t = some t' ∧ SortsTo w swapped t t')
    (hlt : chunks.Pairwise fun c c' => ∀ e ∈ c, ∀ e' ∈ c', w e.pointer < w e'.pointer) :
    ∃ s', Slices.onSlices f (chunks.map List.length) s = some s' ∧ SortsTo w swapped s s' := by
  induction chunks generalizing s with
  | nil => exact ⟨s, rfl, .of_nil hs hprimary w swapped⟩
  | cons c chunks ih =>
    rw [List.flatten_cons] at hprimary
    have htake : (s.take c.length).primary = c := by simp [Slices.take, hprimary]
    have hdrop : (s.drop c.length).primary = chunks.flatten := by simp [Slices.drop, hprimary]
    have hlen : s.primary.length = c.length + chunks.flatten.length := by simp [hprimary]
    have hwork := hs.work
    have hfresh : Fresh (s.take c.length) := by
      refine ⟨?_, ?_⟩
      · rw [htake, Slices.take, List.length_take]
        omega
      · rw [htake, Slices.take, hs.marks, List.take_replicate, hlen]
        simp
    have hfresh' : Fresh (s.drop c.length) := by
      refine ⟨?_, ?_⟩
      · rw [hdrop, Slices.drop, List.length_drop]
        omega
      · rw [hdrop, Slices.drop, hs.marks, List.drop_replicate, hlen]
        simp
    obtain ⟨head, hhead, hsorted⟩ := hf c List.mem_cons_self _ hfresh htake
    obtain ⟨tail, htail, hsorted'⟩ := ih _ hfresh' hdrop
      (fun c' hc' => hf c' (List.mem_cons_of_mem c hc')) (List.pairwise_cons.mp hlt).2
    refine ⟨head.append tail, by simp [Slices.onSlices, hhead, htail], ?_, ?_, ?_⟩
    · simp [Slices.append, hsorted.primary, hsorted'.primary, htake, hdrop, hlen]
    · simp [Slices.append, hsorted.work, hsorted'.work, htake, hdrop, hlen]
    · have hptr : pointers s = pointers (s.take c.length) ++ pointers (s.drop c.length) := by
        simp [pointers, htake, hdrop, hprimary]
      have htarget : target swapped (head.append tail) = target swapped head ++ target swapped tail := by
        cases swapped <;> rfl
      rw [hptr, htarget, List.map_append]
      refine hsorted.sorted.append hsorted'.sorted ?_
      intro x hx y hy
      simp only [pointers, htake, hdrop, List.mem_map, List.mem_flatten] at hx hy
      obtain ⟨e, he, rfl⟩ := hx
      obtain ⟨e', ⟨c', hc', he'⟩, rfl⟩ := hy
      exact (List.pairwise_cons.mp hlt).1 c' hc' e he e' he'

end M3bp.RadixSort
