import Mathlib.Data.List.Basic
import Mathlib.Data.Nat.Digits.Lemmas

/-!
A flat memory of bytes. A block of bytes is read and written at an address;
what is written is read back, and a read does not see writes to other
addresses. Words have 64 bits with the least significant byte first.
-/
namespace M3bp

/-- The contents of every address. -/
abbrev ByteMemory := ℕ → UInt8

namespace ByteMemory

def read (mem : ByteMemory) (address n : ℕ) : List UInt8 :=
  (List.range n).map fun i => mem (address + i)

def write (mem : ByteMemory) (address : ℕ) (bytes : List UInt8) : ByteMemory :=
  fun x => if address ≤ x then (bytes[x - address]?).getD (mem x) else mem x

/-- The eight bytes of a word. -/
def wordBytes (value : ℕ) : List UInt8 :=
  (List.range 8).map fun i => UInt8.ofNat (value / 256 ^ i)

def word (bytes : List UInt8) : ℕ := Nat.ofDigits 256 (bytes.map UInt8.toNat)

def readWord (mem : ByteMemory) (address : ℕ) : ℕ := word (mem.read address 8)

variable (mem : ByteMemory)

@[simp] theorem length_read (address n : ℕ) : (mem.read address n).length = n := by
  simp [read]

theorem getElem_read {address n i : ℕ} (h : i < n) :
    (mem.read address n)[i]? = some (mem (address + i)) := by
  simp [read, h]

@[simp] theorem read_zero (address : ℕ) : mem.read address 0 = [] := rfl

theorem read_add (address m n : ℕ) :
    mem.read address (m + n) = mem.read address m ++ mem.read (address + m) n := by
  simp [read, List.range_add, Nat.add_assoc]

theorem read_congr {mem mem' : ByteMemory} {address address' n : ℕ}
    (h : ∀ i < n, mem (address + i) = mem' (address' + i)) :
    mem.read address n = mem'.read address' n := by
  refine List.map_congr_left fun i hi => h i ?_
  simpa using hi

theorem write_of_lt {address x : ℕ} (bytes : List UInt8) (h : x < address) :
    mem.write address bytes x = mem x := by
  simp [write, h]

theorem write_of_ge {address x : ℕ} (bytes : List UInt8) (h : address + bytes.length ≤ x) :
    mem.write address bytes x = mem x := by
  have hout : bytes.length ≤ x - address := by omega
  simp [write, List.getElem?_eq_none hout]

theorem write_at {address i : ℕ} {bytes : List UInt8} (h : i < bytes.length) :
    mem.write address bytes (address + i) = bytes[i] := by
  simp [write, h]

/-- A read that does not meet the written block. -/
theorem read_write_of_disjoint {address address' n : ℕ} (bytes : List UInt8)
    (h : address' + n ≤ address ∨ address + bytes.length ≤ address') :
    (mem.write address bytes).read address' n = mem.read address' n := by
  refine read_congr fun i hi => ?_
  rcases h with h | h
  · exact write_of_lt mem bytes (by omega)
  · exact write_of_ge mem bytes (by omega)

@[simp] theorem read_write (address : ℕ) (bytes : List UInt8) :
    (mem.write address bytes).read address bytes.length = bytes := by
  refine List.ext_getElem? fun i => ?_
  rcases Nat.lt_or_ge i bytes.length with hlt | hge
  · rw [getElem_read _ hlt, write_at mem hlt, List.getElem?_eq_getElem hlt]
  · rw [List.getElem?_eq_none (by rwa [length_read]), List.getElem?_eq_none hge]

/-- Two writes side by side. -/
theorem write_write (address : ℕ) (xs ys : List UInt8) :
    (mem.write address xs).write (address + xs.length) ys = mem.write address (xs ++ ys) := by
  funext x
  unfold write
  by_cases hx : address ≤ x
  · by_cases hx' : address + xs.length ≤ x
    · have hout : xs.length ≤ x - address := by omega
      have hsub : x - address - xs.length = x - (address + xs.length) := by omega
      simp [hx, hx', List.getElem?_append_right hout, hsub, List.getElem?_eq_none hout]
    · have hin : x - address < xs.length := by omega
      simp [hx, hx', List.getElem?_append_left hin]
  · have hx' : ¬ address + xs.length ≤ x := by omega
    simp [hx, hx']

theorem word_lt (bytes : List UInt8) : word bytes < 256 ^ bytes.length := by
  have hlt := Nat.ofDigits_lt_base_pow_length (b := 256) (l := bytes.map UInt8.toNat) (by decide)
    (by
      intro d hd
      obtain ⟨b, -, rfl⟩ := List.mem_map.mp hd
      exact b.toNat_lt)
  simpa [word] using hlt

theorem readWord_lt (address : ℕ) : mem.readWord address < 2 ^ 64 := by
  have hlt := word_lt (mem.read address 8)
  rw [length_read] at hlt
  exact hlt

@[simp] theorem length_wordBytes (value : ℕ) : (wordBytes value).length = 8 := by
  simp [wordBytes]

theorem word_wordBytes {value : ℕ} (h : value < 2 ^ 64) : word (wordBytes value) = value := by
  have hrange : List.range 8 = [0, 1, 2, 3, 4, 5, 6, 7] := rfl
  simp only [word, wordBytes, hrange, List.map_cons, List.map_nil, Nat.ofDigits_cons,
    Nat.ofDigits_nil, UInt8.toNat_ofNat', Nat.reducePow]
  omega

/-- Reading back a word from memory that holds its bytes. -/
theorem readWord_of_read {address value : ℕ} (h : value < 2 ^ 64)
    (hread : mem.read address 8 = wordBytes value) : mem.readWord address = value := by
  rw [readWord, hread, word_wordBytes h]

end ByteMemory

end M3bp
