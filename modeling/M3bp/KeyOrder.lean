import M3bp.KeyBlock
import M3bp.RadixSortOrder

/-!
Keys as the sort compares them. Blocks filled up with zeros decide the order of
two keys, and tell them apart unless one key is the other one followed by zeros
up to the end of the window in which the shorter one ends. Without such a pair no
block is ever asked for that starts behind the end of a key.
-/
namespace M3bp

/-- The lexicographic order of unsigned bytes. -/
def LexLt (k k' : List UInt8) : Prop := k.map UInt8.toNat < k'.map UInt8.toNat

/-- `k'` is a different key that reads like `k` with zeros behind it, up to the
end of the window in which `k` ends. -/
def ZeroExtends (k k' : List UInt8) : Prop :=
  k ≠ k' ∧ k.length ≤ k'.length ∧
    ∀ i < 8 * (k.length / 8 + 1), k.getD i 0 = k'.getD i 0

instance (k k' : List UInt8) : Decidable (ZeroExtends k k') :=
  inferInstanceAs (Decidable (_ ∧ _ ∧ _))

theorem ZeroExtends.isPrefix {k k' : List UInt8} (h : ZeroExtends k k') : k <+: k' := by
  obtain ⟨-, hlen, hbytes⟩ := h
  have htake : k = k'.take k.length := by
    refine List.ext_getElem (by simp [hlen]) fun i hi hi' => ?_
    have hbyte := hbytes i (by omega)
    rw [List.getElem_take]
    simpa [List.getD_eq_getElem?_getD, hi, show i < k'.length by omega] using hbyte
  rw [htake]
  exact List.take_prefix _ _

namespace KeyBlock

theorem foldl_bigEndian (bytes : List UInt8) (a : ℕ) :
    bytes.foldl (fun a b => a * 256 + b.toNat) a = a * 256 ^ bytes.length + bigEndian bytes := by
  induction bytes generalizing a with
  | nil => simp [bigEndian]
  | cons b bytes ih =>
    have hcons : bigEndian (b :: bytes) = (0 * 256 + b.toNat) * 256 ^ bytes.length + bigEndian bytes :=
      ih _
    rw [List.foldl_cons, ih, hcons, List.length_cons]
    ring

theorem bigEndian_cons (b : UInt8) (bytes : List UInt8) :
    bigEndian (b :: bytes) = b.toNat * 256 ^ bytes.length + bigEndian bytes := by
  rw [bigEndian, List.foldl_cons, foldl_bigEndian]
  simp

theorem bigEndian_lt (bytes : List UInt8) : bigEndian bytes < 256 ^ bytes.length := by
  induction bytes with
  | nil => simp [bigEndian]
  | cons b bytes ih =>
    have hb : b.toNat < 256 := b.toNat_lt
    rw [bigEndian_cons, List.length_cons, Nat.pow_succ]
    have hle : b.toNat * 256 ^ bytes.length ≤ 255 * 256 ^ bytes.length :=
      Nat.mul_le_mul_right _ (by omega)
    omega

/-- The leading byte decides, then the others. -/
theorem bigEndian_cons_lt {b b' : UInt8} {l l' : List UInt8} (hlen : l.length = l'.length)
    (h : bigEndian (b :: l) < bigEndian (b' :: l')) :
    b.toNat < b'.toNat ∨ b = b' ∧ bigEndian l < bigEndian l' := by
  have hl := bigEndian_lt l
  have hl' := bigEndian_lt l'
  rw [bigEndian_cons, bigEndian_cons, hlen] at h
  rw [hlen] at hl
  rcases Nat.lt_trichotomy b.toNat b'.toNat with hlt | heq | hgt
  · exact Or.inl hlt
  · rw [heq] at h
    exact Or.inr ⟨UInt8.toNat_inj.mp heq, by omega⟩
  · have hmul : (b'.toNat + 1) * 256 ^ l'.length ≤ b.toNat * 256 ^ l'.length :=
      Nat.mul_le_mul_right _ hgt
    rw [Nat.add_mul] at hmul
    omega

theorem exists_of_bigEndian_lt {l l' : List UInt8} (hlen : l.length = l'.length)
    (h : bigEndian l < bigEndian l') :
    ∃ i < l.length, (∀ j < i, l.getD j 0 = l'.getD j 0) ∧
      (l.getD i 0).toNat < (l'.getD i 0).toNat := by
  induction l generalizing l' with
  | nil =>
    obtain rfl : l' = [] := List.length_eq_zero_iff.mp (by simpa using hlen.symm)
    exact absurd h (lt_irrefl _)
  | cons b l ih =>
    obtain ⟨b', l', rfl⟩ := List.exists_cons_of_length_eq_add_one hlen.symm
    have hlen' : l.length = l'.length := by simpa using hlen
    rcases bigEndian_cons_lt hlen' h with hlt | ⟨rfl, hlt⟩
    · exact ⟨0, by simp, by omega, by simpa using hlt⟩
    · obtain ⟨i, hi, hbefore, hat⟩ := ih hlen' hlt
      refine ⟨i + 1, by simpa using hi, ?_, by simpa using hat⟩
      intro j hj
      cases j with
      | zero => rfl
      | succ j => simpa using hbefore j (by omega)

theorem bigEndian_injective {l l' : List UInt8} (hlen : l.length = l'.length)
    (h : bigEndian l = bigEndian l') : l = l' := by
  induction l generalizing l' with
  | nil => exact (List.length_eq_zero_iff.mp (by simpa using hlen.symm)).symm
  | cons b l ih =>
    obtain ⟨b', l', rfl⟩ := List.exists_cons_of_length_eq_add_one hlen.symm
    have hlen' : l.length = l'.length := by simpa using hlen
    have hl := bigEndian_lt l
    have hl' := bigEndian_lt l'
    rw [bigEndian_cons, bigEndian_cons, hlen'] at h
    rw [hlen'] at hl
    have hdiv : ∀ x y, y < 256 ^ l'.length → (x * 256 ^ l'.length + y) / 256 ^ l'.length = x := by
      intro x y hy
      rw [Nat.mul_comm, Nat.mul_add_div (by positivity), Nat.div_eq_of_lt hy, Nat.add_zero]
    have hb : b.toNat = b'.toNat := by
      rw [← hdiv b.toNat _ hl, h, hdiv _ _ hl']
    rw [hb] at h
    rw [UInt8.toNat_inj.mp hb, ih hlen' (by omega)]

end KeyBlock

/-- The first byte in which two keys, filled up with zeros, differ. -/
theorem LexLt.of_first {k k' : List UInt8} {i : ℕ} (hbefore : ∀ j < i, k.getD j 0 = k'.getD j 0)
    (h : (k.getD i 0).toNat < (k'.getD i 0).toNat) : LexLt k k' := by
  induction i generalizing k k' with
  | zero =>
    cases k' with
    | nil => simp at h
    | cons b' l' =>
      cases k with
      | nil => exact List.nil_lt_cons _ _
      | cons b l => exact List.cons_lt_cons_iff.mpr (Or.inl (by simpa using h))
  | succ i ih =>
    cases k' with
    | nil => simp at h
    | cons b' l' =>
      cases k with
      | nil => exact List.nil_lt_cons _ _
      | cons b l =>
        have hhead : b = b' := by simpa using hbefore 0 (by omega)
        have htail : LexLt l l' :=
          ih (fun j hj => by simpa using hbefore (j + 1) (by omega)) (by simpa using h)
        exact List.cons_lt_cons_iff.mpr (Or.inr ⟨by rw [hhead], htail⟩)

theorem LexLt.irrefl (k : List UInt8) : ¬ LexLt k k := lt_irrefl (k.map UInt8.toNat)

theorem LexLt.trans {k k' k'' : List UInt8} (h : LexLt k k') (h' : LexLt k' k'') : LexLt k k'' :=
  lt_trans (α := List ℕ) h h'

/-- The keys that a view shows, and that its blocks are theirs as long as they
start inside the key or at its end. -/
structure Shows {ρ : Type} (view : KeyView ρ) (key : ρ → List UInt8) : Prop where
  length : ∀ r, view.keyLength r = (key r).length
  block : ∀ r m, 8 * m ≤ (key r).length →
    (view.block r (8 * m)).toNat = KeyBlock.bigEndian (KeyBlock.window (key r) m)

/-- The records `S` agree in all bytes before window `m`. -/
def AgreeBelow {ρ : Type} (key : ρ → List UInt8) (m : ℕ) (S : List ρ) : Prop :=
  ∀ r ∈ S, ∀ r' ∈ S, ∀ i < 8 * m, (key r).getD i 0 = (key r').getD i 0

namespace RadixSort

variable {ρ : Type} {view : KeyView ρ} {key : ρ → List UInt8} {m fuel : ℕ} {S : List ρ}

theorem getD_window (k : List UInt8) {i : ℕ} (hi : i < 8) :
    (KeyBlock.window k m).getD i 0 = k.getD (8 * m + i) 0 := by
  simp [KeyBlock.window, List.getD_eq_getElem?_getD, hi]

/-- Where somebody's key goes on, every key reaches. -/
theorem le_length_of_longer (hdistinct : ∀ r ∈ S, ∀ r' ∈ S, ¬ ZeroExtends (key r) (key r'))
    (hagree : AgreeBelow key m S) {r s : ρ} (hr : r ∈ S) (hs : s ∈ S)
    (hlong : 8 * m < (key s).length) : 8 * m ≤ (key r).length := by
  by_contra hshort
  refine hdistinct r hr s hs ⟨?_, by omega, fun i hi => hagree r hr s hs i (by omega)⟩
  intro heq
  rw [heq] at hshort
  omega

/-- Keys that have all ended and read alike are equal. -/
theorem eq_of_finished (hdistinct : ∀ r ∈ S, ∀ r' ∈ S, ¬ ZeroExtends (key r) (key r'))
    (hagree : AgreeBelow key m S) (hfinished : ∀ r ∈ S, (key r).length ≤ 8 * m) {r r' : ρ}
    (hr : r ∈ S) (hr' : r' ∈ S) : key r = key r' := by
  by_contra hne
  wlog hle : (key r).length ≤ (key r').length generalizing r r'
  · exact this hr' hr (Ne.symm hne) (by omega)
  rcases Nat.lt_or_ge (key r).length (8 * m) with hlt | hge
  · exact hdistinct r hr r' hr' ⟨hne, hle, fun i hi => hagree r hr r' hr' i (by omega)⟩
  · have hlen : (key r).length = (key r').length := by
      have hmax := hfinished r' hr'
      omega
    refine hne (List.ext_getElem hlen fun i hi hi' => ?_)
    have hmax := hfinished r hr
    simpa [List.getD_eq_getElem?_getD, hi, hi'] using hagree r hr r' hr' i (by omega)

/-- The class of a block agrees in one more window. -/
theorem agreeBelow_filter (hshows : Shows view key) (hagree : AgreeBelow key m S)
    (hreach : ∀ r ∈ S, 8 * m ≤ (key r).length) (b : UInt64) :
    AgreeBelow key (m + 1) (S.filter fun x => view.block x (8 * m) = b) := by
  intro r hr r' hr' i hi
  obtain ⟨hmem, hb⟩ := List.mem_filter.mp hr
  obtain ⟨hmem', hb'⟩ := List.mem_filter.mp hr'
  simp only [decide_eq_true_eq] at hb hb'
  by_cases hlt : i < 8 * m
  · exact hagree r hmem r' hmem' i hlt
  · have hvalue : KeyBlock.bigEndian (KeyBlock.window (key r) m) =
        KeyBlock.bigEndian (KeyBlock.window (key r') m) := by
      rw [← hshows.block r m (hreach r hmem), ← hshows.block r' m (hreach r' hmem'), hb, hb']
    have hwindow := KeyBlock.bigEndian_injective (by simp [KeyBlock.window]) hvalue
    have hbyte := congrArg (fun l => l.getD (i - 8 * m) 0) hwindow
    simp only [getD_window _ (show i - 8 * m < 8 by omega)] at hbyte
    rwa [show 8 * m + (i - 8 * m) = i by omega] at hbyte

theorem lexLt_of_block_lt (hshows : Shows view key) (hagree : AgreeBelow key m S)
    (hreach : ∀ r ∈ S, 8 * m ≤ (key r).length) {r r' : ρ} (hr : r ∈ S) (hr' : r' ∈ S)
    (h : (view.block r (8 * m)).toNat < (view.block r' (8 * m)).toNat) :
    LexLt (key r) (key r') := by
  rw [hshows.block r m (hreach r hr), hshows.block r' m (hreach r' hr')] at h
  obtain ⟨i, hi, hbefore, hat⟩ := KeyBlock.exists_of_bigEndian_lt (by simp [KeyBlock.window]) h
  have hi' : i < 8 := by simpa [KeyBlock.window] using hi
  rw [getD_window _ hi', getD_window _ hi'] at hat
  refine LexLt.of_first (fun j hj => ?_) hat
  by_cases hlt : j < 8 * m
  · exact hagree r hr r' hr' j hlt
  · have hbyte := hbefore (j - 8 * m) (by omega)
    rw [getD_window _ (by omega), getD_window _ (by omega)] at hbyte
    rwa [show 8 * m + (j - 8 * m) = j by omega] at hbyte

/-- The compared windows order the keys. -/
theorem windows_order (hshows : Shows view key)
    (hdistinct : ∀ r ∈ S, ∀ r' ∈ S, ¬ ZeroExtends (key r) (key r'))
    (hagree : AgreeBelow key m S) (hfuel : ∀ r ∈ S, (key r).length ≤ 8 * (m + fuel)) {r r' : ρ}
    (hr : r ∈ S) (hr' : r' ∈ S) :
    (windows view fuel m S r = windows view fuel m S r' → key r = key r') ∧
    (windows view fuel m S r < windows view fuel m S r' → LexLt (key r) (key r')) := by
  induction fuel generalizing m S with
  | zero =>
    exact ⟨fun _ => eq_of_finished hdistinct hagree hfuel hr hr', fun h => absurd h (lt_irrefl _)⟩
  | succ fuel ih =>
    by_cases hfinished : ∀ x ∈ S, view.keyLength x ≤ 8 * m
    · rw [windows_finished hfinished, windows_finished hfinished]
      have hends : ∀ x ∈ S, (key x).length ≤ 8 * m := fun x hx => hshows.length x ▸ hfinished x hx
      exact ⟨fun _ => eq_of_finished hdistinct hagree hends hr hr', fun h => absurd h (lt_irrefl _)⟩
    · obtain ⟨s, hs, hlong⟩ : ∃ s ∈ S, 8 * m < (key s).length := by
        by_contra hno
        refine hfinished fun x hx => ?_
        rw [hshows.length]
        by_contra hgt
        exact hno ⟨x, hx, by omega⟩
      have hreach : ∀ x ∈ S, 8 * m ≤ (key x).length := fun x hx =>
        le_length_of_longer hdistinct hagree hx hs hlong
      have hclass : view.block r (8 * m) = view.block r' (8 * m) →
          (windows view fuel (m + 1) (S.filter fun x => view.block x (8 * m) = view.block r (8 * m)) r =
            windows view fuel (m + 1)
              (S.filter fun x => view.block x (8 * m) = view.block r (8 * m)) r' →
            key r = key r') ∧
          (windows view fuel (m + 1) (S.filter fun x => view.block x (8 * m) = view.block r (8 * m)) r <
            windows view fuel (m + 1)
              (S.filter fun x => view.block x (8 * m) = view.block r (8 * m)) r' →
            LexLt (key r) (key r')) := by
        intro heq
        refine ih (fun x hx y hy => ?_) (agreeBelow_filter hshows hagree hreach _) (fun x hx => ?_)
          (List.mem_filter.mpr ⟨hr, by simp⟩) (List.mem_filter.mpr ⟨hr', by simp [heq]⟩)
        · exact hdistinct x (List.mem_filter.mp hx).1 y (List.mem_filter.mp hy).1
        · have hmax := hfuel x (List.mem_filter.mp hx).1
          omega
      rw [windows_active hfinished, windows_active hfinished]
      unfold activeWindows
      constructor
      · intro h
        obtain ⟨hhead, htail⟩ := List.cons_eq_cons.mp h
        have hblock : view.block r (8 * m) = view.block r' (8 * m) := UInt64.toNat_inj.mp hhead
        rw [← hblock] at htail
        exact (hclass hblock).1 htail
      · intro h
        rcases List.cons_lt_cons_iff.mp h with hlt | ⟨hhead, htail⟩
        · exact lexLt_of_block_lt hshows hagree hreach hr hr' hlt
        · have hblock : view.block r (8 * m) = view.block r' (8 * m) := UInt64.toNat_inj.mp hhead
          rw [← hblock] at htail
          exact (hclass hblock).2 htail

variable {bound : ℕ}

/-- The same from the first window on. -/
theorem windows_eq_iff (hshows : Shows view key)
    (hdistinct : ∀ r ∈ S, ∀ r' ∈ S, ¬ ZeroExtends (key r) (key r'))
    (hbound : ∀ r ∈ S, (key r).length ≤ 8 * bound) {r r' : ρ} (hr : r ∈ S) (hr' : r' ∈ S) :
    windows view bound 0 S r = windows view bound 0 S r' ↔ key r = key r' := by
  have hagree : AgreeBelow key 0 S := fun _ _ _ _ i hi => by omega
  have horder := windows_order hshows hdistinct hagree (by simpa using hbound) hr hr'
  have horder' := windows_order hshows hdistinct hagree (by simpa using hbound) hr' hr
  refine ⟨horder.1, fun h => ?_⟩
  rcases lt_trichotomy (windows view bound 0 S r) (windows view bound 0 S r') with hlt | heq | hgt
  · exact absurd (h ▸ horder.2 hlt) (LexLt.irrefl _)
  · exact heq
  · exact absurd (h ▸ horder'.2 hgt) (LexLt.irrefl _)

theorem windows_lt_iff (hshows : Shows view key)
    (hdistinct : ∀ r ∈ S, ∀ r' ∈ S, ¬ ZeroExtends (key r) (key r'))
    (hbound : ∀ r ∈ S, (key r).length ≤ 8 * bound) {r r' : ρ} (hr : r ∈ S) (hr' : r' ∈ S) :
    windows view bound 0 S r < windows view bound 0 S r' ↔ LexLt (key r) (key r') := by
  have hagree : AgreeBelow key 0 S := fun _ _ _ _ i hi => by omega
  have horder := windows_order hshows hdistinct hagree (by simpa using hbound) hr hr'
  have horder' := windows_order hshows hdistinct hagree (by simpa using hbound) hr' hr
  refine ⟨horder.2, fun h => ?_⟩
  rcases lt_trichotomy (windows view bound 0 S r) (windows view bound 0 S r') with hlt | heq | hgt
  · exact hlt
  · exact absurd (horder.1 heq ▸ h) (LexLt.irrefl _)
  · exact absurd (h.trans (horder'.2 hgt)) (LexLt.irrefl _)

end RadixSort

end M3bp
