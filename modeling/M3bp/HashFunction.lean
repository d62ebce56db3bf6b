import Mathlib.Algebra.Group.Nat.Defs
import Mathlib.Data.List.Basic
import Mathlib.Data.Nat.Basic

/-!
`hash_byte_sequence`, a MurmurHash3 of 32 bits whose result is scaled to the
range below `modulo`. It reads the bytes of the key and nothing else.
-/
namespace M3bp.HashFunction

def c1 : UInt32 := 0xcc9e2d51

def c2 : UInt32 := 0x1b873593

def seed : UInt32 := 0x7a2be187

def rotateLeft (x r : UInt32) : UInt32 := (x <<< r) ||| (x >>> (32 - r))

def mixKey (k1 : UInt32) : UInt32 := rotateLeft (k1 * c1) 15 * c2

def mixBlock (h1 k1 : UInt32) : UInt32 := rotateLeft (h1 ^^^ mixKey k1) 13 * 5 + 0xe6546b64

/-- The byte at `i` as a word; the bytes of a block are little-endian. -/
def byteAt (bytes : List UInt8) (i : ℕ) : UInt32 := (bytes.getD i 0).toUInt32

def blockAt (bytes : List UInt8) (i : ℕ) : UInt32 :=
  byteAt bytes (4 * i) ||| byteAt bytes (4 * i + 1) <<< 8 ||| byteAt bytes (4 * i + 2) <<< 16 |||
    byteAt bytes (4 * i + 3) <<< 24

/-- The cases of the switch fall through. -/
def mixTail (h1 : UInt32) (bytes : List UInt8) : UInt32 :=
  let tail := bytes.length / 4 * 4
  let k3 := if bytes.length % 4 = 3 then byteAt bytes (tail + 2) <<< 16 else 0
  let k2 := if 2 ≤ bytes.length % 4 then k3 ^^^ byteAt bytes (tail + 1) <<< 8 else k3
  if 1 ≤ bytes.length % 4 then h1 ^^^ mixKey (k2 ^^^ byteAt bytes tail) else h1

def finalize (h1 : UInt32) : UInt32 :=
  let h1 := h1 ^^^ h1 >>> 16
  let h1 := h1 * 0x85ebca6b
  let h1 := h1 ^^^ h1 >>> 13
  let h1 := h1 * 0xc2b2ae35
  h1 ^^^ h1 >>> 16

def hashByteSequence (bytes : List UInt8) (modulo : ℕ) : ℕ :=
  let h1 := (List.range (bytes.length / 4)).foldl (fun h1 i => mixBlock h1 (blockAt bytes i)) seed
  let h1 := finalize (mixTail h1 bytes ^^^ UInt32.ofNat bytes.length)
  h1.toNat * modulo % 2 ^ 64 / 2 ^ 32

theorem hashByteSequence_lt (bytes : List UInt8) {modulo : ℕ} (hpos : 0 < modulo)
    (hmodulo : modulo < 2 ^ 32) : hashByteSequence bytes modulo < modulo := by
  unfold hashByteSequence
  simp only
  generalize finalize _ = h1
  have hlt : h1.toNat < 2 ^ 32 := h1.toNat_lt
  have hmul : h1.toNat * modulo < 2 ^ 32 * modulo := Nat.mul_lt_mul_of_pos_right hlt hpos
  have hfits : h1.toNat * modulo < 2 ^ 64 := by omega
  rw [Nat.mod_eq_of_lt hfits]
  exact Nat.div_lt_of_lt_mul hmul

end M3bp.HashFunction
