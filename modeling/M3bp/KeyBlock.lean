import M3bp.ByteMemory
import M3bp.RadixSort
import Mathlib.Tactic.NormNum
import Mathlib.Tactic.Ring

/-!
A record in memory and the eight-byte blocks of its key. A record is its length,
the length of its key and its bytes. As long as a block does not start behind the
end of the key it is the key, filled up with zeros. Behind the end the subtraction
wraps, and the block is whatever bytes the memory holds there.
-/
namespace M3bp

namespace KeyBlock

def getRecordLength (mem : ByteMemory) (ptr : ℕ) : ℕ := mem.readWord ptr

def getKeyLength (mem : ByteMemory) (ptr : ℕ) : ℕ := mem.readWord (ptr + 8)

def getKeyPointer (ptr : ℕ) : ℕ := ptr + 16

/-- `key_len - k` in 64 bits. -/
def remaining (keyLen k : ℕ) : ℕ := (keyLen + 2 ^ 64 - k) % 2 ^ 64

/-- `block <<= 8` and `block |= byte`. -/
def pushByte (block : UInt64) (byte : UInt8) : UInt64 := block <<< 8 ||| byte.toUInt64

/-- The byte-swapped load of the fast path is the big-endian value of the eight
bytes; the other path shifts them in one by one. -/
def getBlock (mem : ByteMemory) (ptr k : ℕ) : UInt64 :=
  let keyLen := getKeyLength mem ptr
  let keyPtr := getKeyPointer ptr + k
  if 8 ≤ remaining keyLen k then
    (mem.read keyPtr 8).foldl pushByte 0
  else
    ((List.range 8).map fun i => if k + i < keyLen then mem (keyPtr + i) else 0).foldl pushByte 0

def view (mem : ByteMemory) : KeyView ℕ :=
  { keyLength := getKeyLength mem, block := getBlock mem }

/-- The key of the record at `ptr`. -/
def keyAt (mem : ByteMemory) (ptr : ℕ) : List UInt8 :=
  mem.read (getKeyPointer ptr) (getKeyLength mem ptr)

/-- The value of bytes whose most significant one comes first. -/
def bigEndian (bytes : List UInt8) : ℕ := bytes.foldl (fun a b => a * 256 + b.toNat) 0

/-- The eight bytes of a key from `8 * m` on, with zeros behind its end. -/
def window (key : List UInt8) (m : ℕ) : List UInt8 :=
  (List.range 8).map fun i => key.getD (8 * m + i) 0

theorem pushByte_toNat {block : UInt64} (byte : UInt8) (h : block.toNat < 2 ^ 56) :
    (pushByte block byte).toNat = block.toNat * 256 + byte.toNat := by
  have hbyte : byte.toNat < 2 ^ 8 := byte.toNat_lt
  have hshift : (block <<< 8).toNat = block.toNat <<< 8 := by
    rw [UInt64.toNat_shiftLeft]
    have height : (8 : UInt64).toNat % 64 = 8 := rfl
    rw [height, Nat.shiftLeft_eq]
    exact Nat.mod_eq_of_lt (by omega)
  rw [pushByte, UInt64.toNat_or, hshift, UInt8.toNat_toUInt64,
    ← Nat.shiftLeft_add_eq_or_of_lt hbyte, Nat.shiftLeft_eq]

theorem foldl_pushByte_toNat (bytes : List UInt8) {block : UInt64}
    (h : (block.toNat + 1) * 256 ^ bytes.length ≤ 2 ^ 64) :
    (bytes.foldl pushByte block).toNat =
      bytes.foldl (fun a b => a * 256 + b.toNat) block.toNat := by
  induction bytes generalizing block with
  | nil => rfl
  | cons b bytes ih =>
    have hb : b.toNat < 256 := b.toNat_lt
    have hone : 1 ≤ 256 ^ bytes.length := Nat.one_le_pow _ _ (by decide)
    rw [List.length_cons, Nat.pow_succ] at h
    have hsmall : block.toNat < 2 ^ 56 := by
      by_contra hge
      have hle : (2 ^ 56 + 1) * (256 ^ bytes.length * 256) ≤
          (block.toNat + 1) * (256 ^ bytes.length * 256) := Nat.mul_le_mul_right _ (by omega)
      omega
    have hpush := pushByte_toNat b hsmall
    rw [List.foldl_cons, List.foldl_cons, ih, hpush]
    rw [hpush]
    calc (block.toNat * 256 + b.toNat + 1) * 256 ^ bytes.length
        ≤ ((block.toNat + 1) * 256) * 256 ^ bytes.length := Nat.mul_le_mul_right _ (by omega)
      _ = (block.toNat + 1) * (256 ^ bytes.length * 256) := by ring
      _ ≤ 2 ^ 64 := h

/-- A block that starts inside the key or at its end. -/
theorem getBlock_toNat {mem : ByteMemory} {ptr m : ℕ} (h : 8 * m ≤ getKeyLength mem ptr)
    (hlen : getKeyLength mem ptr < 2 ^ 64) :
    (getBlock mem ptr (8 * m)).toNat = bigEndian (window (keyAt mem ptr) m) := by
  have hrem : remaining (getKeyLength mem ptr) (8 * m) = getKeyLength mem ptr - 8 * m := by
    unfold remaining
    omega
  have hbyte : ∀ i, (keyAt mem ptr).getD (8 * m + i) 0 =
      if 8 * m + i < getKeyLength mem ptr then mem (getKeyPointer ptr + 8 * m + i) else 0 := by
    intro i
    by_cases hi : 8 * m + i < getKeyLength mem ptr
    · rw [if_pos hi, List.getD_eq_getElem?_getD, List.getElem?_eq_getElem (by simpa [keyAt] using hi),
        Option.getD_some]
      simp only [keyAt, ByteMemory.read, List.getElem_map, List.getElem_range, Nat.add_assoc]
    · rw [if_neg hi, List.getD_eq_getElem?_getD, List.getElem?_eq_none (by simpa [keyAt] using hi),
        Option.getD_none]
  have hfold : ∀ bytes : List UInt8, bytes.length = 8 →
      (bytes.foldl pushByte 0).toNat = bigEndian bytes := by
    intro bytes hlength
    have hroom : ((0 : UInt64).toNat + 1) * 256 ^ bytes.length ≤ 2 ^ 64 := by
      rw [hlength, UInt64.toNat_zero]
      norm_num
    simpa [bigEndian] using foldl_pushByte_toNat bytes hroom
  by_cases hfast : 8 ≤ getKeyLength mem ptr - 8 * m
  · have hread : mem.read (getKeyPointer ptr + 8 * m) 8 = window (keyAt mem ptr) m := by
      refine List.map_congr_left fun i hi => ?_
      have hi' : i < 8 := by simpa using hi
      rw [hbyte, if_pos (by omega)]
    rw [getBlock, hrem, if_pos hfast, hfold _ (by simp), hread]
  · have hloop : ((List.range 8).map fun i =>
        if 8 * m + i < getKeyLength mem ptr then mem (getKeyPointer ptr + 8 * m + i) else 0) =
        window (keyAt mem ptr) m :=
      List.map_congr_left fun i _ => (hbyte i).symm
    rw [getBlock, hrem, if_neg hfast, hloop, hfold _ (by simp [window])]

end KeyBlock

end M3bp
