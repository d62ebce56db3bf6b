import M3bp.KeyWindows

/-!
The sort under two views that show the same keys. In a class in which no key goes on the call is
finished and compares nothing more: what it loads stays in the arrays that are not handed on. So
records that are taken beyond the end of their keys do no harm, as long as no other key of their
class goes on.
-/
namespace M3bp

/-- The key `k` reads like `k'` with zeros behind it, and goes on behind the window in which `k'`
ends. -/
def Outruns (k k' : List UInt8) : Prop :=
  8 * (k'.length / 8 + 1) < k.length ∧ AgreesTo (8 * (k'.length / 8 + 1)) k k'

instance (k k' : List UInt8) : Decidable (Outruns k k') :=
  inferInstanceAs (Decidable (_ ∧ _))

namespace RadixSort

variable {ρ : Type} {view view' : KeyView ρ} {key : ρ → List UInt8} {S : List ρ} {c : Call ρ}

/-- The same marks and the same entries in the arrays that are handed on. -/
structure SameResult (swapped : Bool) (s t : Slices ρ) : Prop where
  marks : s.equalsToLeft = t.equalsToLeft
  target : target swapped s = target swapped t

theorem carried_sameResult : Carried (SameResult (ρ := ρ)) where
  refl _ _ := ⟨rfl, rfl⟩
  append := by
    rintro (_ | _) s t s' t' ⟨hmarks, htarget⟩ ⟨hmarks', htarget'⟩
    · refine ⟨congrArg₂ (· ++ ·) hmarks hmarks', ?_⟩
      exact congrArg₂ (· ++ ·) htarget htarget'
    · refine ⟨congrArg₂ (· ++ ·) hmarks hmarks', ?_⟩
      exact congrArg₂ (· ++ ·) htarget htarget'
  flip := by
    rintro (_ | _) s t ⟨hmarks, htarget⟩
    · exact ⟨hmarks, htarget⟩
    · exact ⟨hmarks, htarget⟩

/-- A call that goes on stays inside. -/
theorem ClassCall.stays (hshows : Shows view key) (h : ClassCall view key S c)
    (hno : ∀ r ∈ S, ∀ x ∈ S, ¬ Outruns (key x) (key r))
    (hgo : ¬ (c.depth % 8 = 0 ∧ isFinished view c.depth c.slices = true)) : StaysInside key c := by
  intro hround r hr
  by_contra hlt
  obtain ⟨x, hx, hlong⟩ := exists_longer hshows fun hfinished => hgo ⟨hround, hfinished⟩
  obtain ⟨hxS, hagree⟩ := mem_keyClass.mp ((h.members r hr).mem_iff.mp hx)
  have hrS := (mem_keyClass.mp ((h.members r hr).mem_iff.mp hr)).1
  have hwindow : 8 * ((key r).length / 8 + 1) ≤ c.depth := by omega
  exact hno r hrS x hxS ⟨by omega, hagree.mono hwindow⟩

theorem sameResult_markEqual (depth : ℕ) (s : Slices ρ) :
    SameResult false (markEqual (loadWork view' depth s)) (markEqual (loadWork view depth s)) := by
  unfold markEqual loadWork
  refine ⟨?_, ?_⟩
  · rcases s with ⟨_ | ⟨b, marks⟩, _ | ⟨e, primary⟩, work⟩ <;> rfl
  · rcases s with ⟨_ | ⟨b, marks⟩, _ | ⟨e, primary⟩, work⟩ <;> rfl

/-- Every call returns the same under both views. -/
theorem sameResult (hshows : Shows view key)
    (hlength : ∀ r ∈ S, view'.keyLength r = (key r).length)
    (hblock : ∀ r ∈ S, ∀ m, 8 * m ≤ (key r).length →
      (view'.block r (8 * m)).toNat = KeyBlock.bigEndian (KeyBlock.window (key r) m))
    (hno : ∀ r ∈ S, ∀ x ∈ S, ¬ Outruns (key x) (key r)) (fuel : ℕ) :
    ∀ c, ClassCall view key S c →
      Option.Rel (SameResult c.swapped) (msdRadixSort view' fuel c.depth c.swapped c.slices)
        (msdRadixSort view fuel c.depth c.swapped c.slices) := by
  induction fuel with
  | zero => exact fun _ _ => .none
  | succ fuel ih =>
    intro c h
    have hin : ∀ e ∈ c.slices.primary, e.pointer ∈ S := fun e he =>
      (mem_keyClass.mp ((h.members _ (List.mem_map.mpr ⟨e, he, rfl⟩)).mem_iff.mp
        (List.mem_map.mpr ⟨e, he, rfl⟩))).1
    have hlengths : ∀ e ∈ c.slices.primary, view'.keyLength e.pointer = view.keyLength e.pointer :=
      fun e he => by rw [hshows.length, hlength _ (hin e he)]
    by_cases hnil : c.slices.primary.length = 0
    · rw [msdRadixSort, msdRadixSort, if_pos hnil, if_pos hnil]
      exact .some (carried_sameResult.refl _ _)
    by_cases hdone : c.depth % 8 = 0 ∧ isFinished view c.depth c.slices = true
    · have heven : ¬ c.depth % 2 = 1 := by omega
      have hswapped : c.swapped = false := by rw [h.parity]; simp [heven]
      rw [msdRadixSort, msdRadixSort, if_neg hnil, if_neg hnil, if_pos hdone,
        if_pos (by rwa [isFinished_congr hlengths]), hswapped]
      exact .some (sameResult_markEqual c.depth c.slices)
    · have hstays := h.stays hshows hno hdone
      refine rel_of_subCalls carried_sameResult h.well.work hlengths (fun hround e he => ?_) hnil hdone
        fun c' hc' => ih c' (h.next hshows hstays hc').1
      have hinside := hstays hround e.pointer (List.mem_map.mpr ⟨e, he, rfl⟩)
      have hdepth : 8 * (c.depth / 8) = c.depth := by omega
      rw [← hdepth] at hinside ⊢
      rw [← UInt64.toNat_inj, hshows.block _ _ hinside, hblock _ (hin e he) _ hinside]

end RadixSort

namespace Shuffle

open KeyBlock RadixSort

/-- Memories that hold the same keys are sorted in the same way. -/
theorem sortPointers_congr {mem mem' : ByteMemory} {pointers : List ℕ}
    (hkeys : ∀ ptr ∈ pointers, keyAt mem' ptr = keyAt mem ptr)
    (hno : ∀ a ∈ pointers, ∀ b ∈ pointers, ¬ Outruns (keyAt mem b) (keyAt mem a)) :
    sortPointers mem' pointers = sortPointers mem pointers := by
  have hlength : ∀ ptr ∈ pointers, getKeyLength mem' ptr = getKeyLength mem ptr := fun ptr hptr => by
    have hlengths := congrArg List.length (hkeys ptr hptr)
    simpa [keyAt] using hlengths
  have hmax : maxKeyLength mem' pointers = maxKeyLength mem pointers := by
    unfold maxKeyLength
    clear hkeys hno
    induction pointers with
    | nil => rw [List.foldr_nil, List.foldr_nil]
    | cons ptr pointers ih =>
      rw [List.forall_mem_cons] at hlength
      rw [List.foldr_cons, List.foldr_cons, ih hlength.2, hlength.1]
  have hstart := @classCall_start _ (view mem) (keyAt mem) _ (wellSliced_sortInput pointers)
  rw [pointers_sortInput] at hstart
  have hshown : ∀ ptr ∈ pointers, (view mem').keyLength ptr = (keyAt mem ptr).length :=
    fun ptr hptr => by
      rw [← hkeys ptr hptr]
      exact (shows_keyAt mem').length ptr
  have hblock : ∀ ptr ∈ pointers, ∀ m, 8 * m ≤ (keyAt mem ptr).length →
      ((view mem').block ptr (8 * m)).toNat = bigEndian (window (keyAt mem ptr) m) :=
    fun ptr hptr m hm => by
      rw [← hkeys ptr hptr] at hm ⊢
      exact (shows_keyAt mem').block ptr m hm
  have hsame := sameResult (shows_keyAt mem) hshown hblock hno (8 * maxKeyLength mem pointers + 1)
    _ hstart
  unfold sortPointers
  rw [hmax]
  simp only at hsame
  generalize msdRadixSort (view mem') _ _ _ _ = a at hsame ⊢
  generalize msdRadixSort (view mem) _ _ _ _ = b at hsame ⊢
  cases hsame with
  | none => rfl
  | some h =>
    have htarget := h.target
    simp only [target] at htarget
    simp only [Option.bind_eq_bind, Option.bind_some, h.marks]
    rw [if_neg Bool.false_ne_true, if_neg Bool.false_ne_true] at htarget
    rw [htarget]

end Shuffle

end M3bp
