import M3bp.BucketScatter
import M3bp.QuickSort

/-!
The hybrid sort of `msd_radix_sort`. A call gets slices of five arrays; the
caches and the pointers of one side are one list of entries. The side that a
call sorts into is the one its outermost caller passed first, which `swapped`
keeps track of while the buckets go back and forth between the two sides.
-/
namespace M3bp

/-- What the sort reads through a pointer: `get_key_length` and `get_block`. -/
structure KeyView (ρ : Type) where
  keyLength : ρ → ℕ
  block : ρ → ℕ → UInt64

/-- The slices of `equals_to_left`, of `cache` with `pointers` and of
`cache_work` with `pointers_work`. -/
structure Slices (ρ : Type) where
  equalsToLeft : List Bool
  primary : List (Entry ρ)
  work : List (Entry ρ)
  deriving DecidableEq, Repr

namespace Slices

variable {ρ : Type}

/-- `std::swap` on the array parameters. -/
def flip (s : Slices ρ) : Slices ρ := { s with primary := s.work, work := s.primary }

def take (s : Slices ρ) (k : ℕ) : Slices ρ :=
  { equalsToLeft := s.equalsToLeft.take k, primary := s.primary.take k, work := s.work.take k }

def drop (s : Slices ρ) (k : ℕ) : Slices ρ :=
  { equalsToLeft := s.equalsToLeft.drop k, primary := s.primary.drop k, work := s.work.drop k }

def append (s t : Slices ρ) : Slices ρ :=
  { equalsToLeft := s.equalsToLeft ++ t.equalsToLeft, primary := s.primary ++ t.primary,
    work := s.work ++ t.work }

/-- Calls `f` on adjacent slices of the given sizes. -/
def onSlices (f : Slices ρ → Option (Slices ρ)) : List ℕ → Slices ρ → Option (Slices ρ)
  | [], s => some s
  | k :: ks, s => do
    let head ← f (s.take k)
    let tail ← onSlices f ks (s.drop k)
    some (head.append tail)

end Slices

namespace RadixSort

variable {ρ : Type}

def radixSortThreshold : ℕ := 2 ^ 8

def bucketSize : ℕ := 2 ^ 8

/-- The first loop: the blocks at `depth` are written to `cache_work`. -/
def loadWork (view : KeyView ρ) (depth : ℕ) (s : Slices ρ) : Slices ρ :=
  let work := s.work.zipWith (fun w e => { w with cache := view.block e.pointer depth }) s.primary
  { s with work := work }

def isFinished (view : KeyView ρ) (depth : ℕ) (s : Slices ρ) : Bool :=
  s.primary.all fun e => !decide (depth < view.keyLength e.pointer)

/-- `cache[i] = cache_work[i]` for every `i`. -/
def copyCache (s : Slices ρ) : Slices ρ :=
  { s with primary := s.primary.zipWith (fun e w => { e with cache := w.cache }) s.work }

def markRest (previous : Entry ρ) : List (Entry ρ) → List Bool → List Bool
  | e :: rest, b :: marks => (if e.cache == previous.cache then true else b) :: markRest e rest marks
  | _, marks => marks

/-- The marks of a finished slice, set for every `i` from 1 on. -/
def markEqual (s : Slices ρ) : Slices ρ :=
  match s.primary, s.equalsToLeft with
  | e :: rest, b :: marks => { s with equalsToLeft := b :: markRest e rest marks }
  | _, _ => s

/-- The lengths of the maximal runs of equal caches. The loop reads a cache only
before the recursive call on its run. -/
def runLengths : List (Entry ρ) → List ℕ
  | [] => []
  | [_] => [1]
  | e :: e' :: rest =>
    match runLengths (e' :: rest) with
    | [] => [1]
    | k :: ks => if e.cache == e'.cache then (k + 1) :: ks else 1 :: k :: ks

/-- The branch below the threshold. -/
def sortRuns (recur : ℕ → Bool → Slices ρ → Option (Slices ρ)) (depth : ℕ) (swapped : Bool)
    (s : Slices ρ) : Option (Slices ρ) := do
  let s := if swapped then { s with work := s.primary }.flip else s
  let sorted ← QuickSort.quickSort (s.primary.length + 1) s.primary
  let nextDepth := (depth + 8) / 8 * 8
  let s ← Slices.onSlices
    (fun run => if 2 ≤ run.primary.length then recur nextDepth false run else some run)
    (runLengths sorted) { s with primary := sorted }
  some (if swapped then s.flip else s)

def digit (depth : ℕ) (e : Entry ρ) : ℕ :=
  ((e.cache >>> UInt64.ofNat ((7 - depth % 8) * 8)) &&& 255).toNat

/-- The sizes `tail - head` of the buckets, from the bins after the scatter. -/
def bucketLengths (bins : ℕ → ℕ) : List ℕ :=
  (List.range bucketSize).map fun i => bins i - if i = 0 then 0 else bins (i - 1)

/-- The branch from the threshold on. -/
def sortBuckets (recur : ℕ → Bool → Slices ρ → Option (Slices ρ)) (depth : ℕ) (swapped : Bool)
    (s : Slices ρ) : Option (Slices ρ) := do
  let starts := (BucketScatter.exclusiveSums
    (BucketScatter.countDigits (digit depth) s.primary) bucketSize).1
  let (bins, work) ← BucketScatter.scatter (digit depth) s.primary starts s.work
  let s ← Slices.onSlices (recur (depth + 1) !swapped) (bucketLengths bins)
    { s with work := work }.flip
  some s.flip

def msdRadixSort (view : KeyView ρ) : ℕ → ℕ → Bool → Slices ρ → Option (Slices ρ)
  | 0, _, _, _ => none
  | fuel + 1, depth, swapped, s =>
    if s.primary.length = 0 then
      some s
    else if depth % 8 = 0 ∧ isFinished view depth s then
      some (markEqual (loadWork view depth s))
    else
      let s := if depth % 8 = 0 then copyCache (loadWork view depth s) else s
      if s.primary.length < radixSortThreshold then
        sortRuns (msdRadixSort view fuel) depth swapped s
      else
        sortBuckets (msdRadixSort view fuel) depth swapped s

end RadixSort

end M3bp
