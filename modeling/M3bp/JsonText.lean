import Mathlib.Data.List.Basic
import Mathlib.Data.Nat.Notation
import Mathlib.Tactic.Common

/-!
The text of a flat JSON array: objects whose values are numbers and plain strings. A
reader gets the objects back from their text.
-/
namespace M3bp.JsonText

inductive Scalar
  | text (s : String)
  | number (n : ℕ)
  deriving DecidableEq, Repr

/-- The members of an object in order. -/
abbrev Object := List (String × Scalar)

def quoted (s : String) : String := "\"" ++ s ++ "\""

def Scalar.render : Scalar → String
  | .text s => quoted s
  | .number n => toString n

def renderMember (member : String × Scalar) : String := quoted member.1 ++ ":" ++ member.2.render

def renderObject (o : Object) : String :=
  "\x7b" ++ ",".intercalate (o.map renderMember) ++ "\x7d"

def renderArray (objects : List Object) : String :=
  "[" ++ ",".intercalate (objects.map renderObject) ++ "]"

/-- A reader takes a value off the front of a text. -/
abbrev Reader (α : Type) := List Char → Option (α × List Char)

/-- Characters that stand for themselves in a string. -/
def isPlain (c : Char) : Bool := c != '\x22' && c != '\x5c' && 32 ≤ c.toNat

def readString : Reader String
  | '\x22' :: cs =>
    match cs.dropWhile isPlain with
    | '\x22' :: rest => some (String.ofList (cs.takeWhile isPlain), rest)
    | _ => none
  | _ => none

def readNumber : Reader ℕ := fun cs =>
  match cs.takeWhile Char.isDigit with
  | [] => none
  | digits => some (Nat.ofDigitChars 10 digits 0, cs.dropWhile Char.isDigit)

def readScalar : Reader Scalar
  | '\x22' :: cs => (readString ('\x22' :: cs)).map fun r => (.text r.1, r.2)
  | cs => (readNumber cs).map fun r => (.number r.1, r.2)

def readMember : Reader (String × Scalar) := fun cs =>
  match readString cs with
  | some (name, ':' :: rest) => (readScalar rest).map fun r => ((name, r.1), r.2)
  | _ => none

/-- Items with commas between them, up to `close`. -/
def readItems {α : Type} (item : Reader α) (close : Char) : ℕ → Reader (List α)
  | 0, _ => none
  | fuel + 1, cs =>
    match item cs with
    | none => none
    | some (_, []) => none
    | some (x, c :: rest) =>
      if c = ',' then (readItems item close fuel rest).map fun r => (x :: r.1, r.2)
      else if c = close then some ([x], rest)
      else none

/-- An opening bracket, items and a closing bracket. -/
def readBracketed {α : Type} (item : Reader α) (opening close : Char) : Reader (List α)
  | c :: c' :: rest =>
    if c ≠ opening then none
    else if c' = close then some ([], rest)
    else readItems item close (c' :: rest).length (c' :: rest)
  | _ => none

def readObject : Reader Object := readBracketed readMember '\x7b' '\x7d'

/-- A whole text that is an array of objects. -/
def readArray (s : String) : Option (List Object) :=
  match readBracketed readObject '[' ']' s.toList with
  | some (objects, []) => some objects
  | _ => none

theorem toList_quoted (s : String) : (quoted s).toList = '\x22' :: (s.toList ++ ['\x22']) := by
  simp [quoted]

theorem readString_quoted {s : String} (h : ∀ c ∈ s.toList, isPlain c = true)
    (rest : List Char) : readString ((quoted s).toList ++ rest) = some (s, rest) := by
  have hquote : isPlain '\x22' = false := by decide
  have htake : (s.toList ++ '\x22' :: rest).takeWhile isPlain = s.toList := by
    rw [List.takeWhile_append_of_pos h, List.takeWhile_cons, hquote]
    simp
  have hdrop : (s.toList ++ '\x22' :: rest).dropWhile isPlain = '\x22' :: rest := by
    rw [List.dropWhile_append_of_pos h, List.dropWhile_cons, hquote]
    simp
  rw [toList_quoted]
  simp only [List.cons_append, List.append_assoc, List.nil_append, readString, hdrop, htake,
    String.ofList_toList]

theorem readNumber_toString (n : ℕ) {c : Char} (hc : c.isDigit = false) (rest : List Char) :
    readNumber ((toString n).toList ++ c :: rest) = some (n, c :: rest) := by
  have hdigits : ∀ d ∈ Nat.toDigits 10 n, d.isDigit = true :=
    fun d hd => Nat.isDigit_of_mem_toDigits (by decide) (by decide) hd
  have htext : (toString n).toList = Nat.toDigits 10 n := Nat.toList_repr
  have htake : (Nat.toDigits 10 n ++ c :: rest).takeWhile Char.isDigit = Nat.toDigits 10 n := by
    rw [List.takeWhile_append_of_pos hdigits, List.takeWhile_cons, hc]
    simp
  have hdrop : (Nat.toDigits 10 n ++ c :: rest).dropWhile Char.isDigit = c :: rest := by
    rw [List.dropWhile_append_of_pos hdigits, List.dropWhile_cons, hc]
    simp
  rw [htext]
  simp only [readNumber, htake, hdrop]
  split
  · next hnil => exact absurd hnil Nat.toDigits_ne_nil
  · rw [Nat.ofDigitChars_ten_toDigits]

/-- A value whose strings need no escapes. -/
def Scalar.IsPlain : Scalar → Prop
  | .text s => ∀ c ∈ s.toList, isPlain c = true
  | .number _ => True

def IsPlainMember (member : String × Scalar) : Prop :=
  (∀ c ∈ member.1.toList, isPlain c = true) ∧ member.2.IsPlain

theorem head_toString (n : ℕ) :
    ∃ c cs, (toString n).toList = c :: cs ∧ c.isDigit = true := by
  have htext : (toString n).toList = Nat.toDigits 10 n := Nat.toList_repr
  cases hdigits : Nat.toDigits 10 n with
  | nil => exact absurd hdigits Nat.toDigits_ne_nil
  | cons c cs =>
    have hc : c ∈ Nat.toDigits 10 n := by
      rw [hdigits]
      exact List.mem_cons_self
    exact ⟨c, cs, by rw [htext, hdigits], Nat.isDigit_of_mem_toDigits (by decide) (by decide) hc⟩

theorem readScalar_render {v : Scalar} (hv : v.IsPlain) {c : Char} (hc : c.isDigit = false)
    (rest : List Char) : readScalar (v.render.toList ++ c :: rest) = some (v, c :: rest) := by
  cases v with
  | text s =>
    have hread := readString_quoted hv (c :: rest)
    rw [toList_quoted, List.cons_append] at hread
    simp only [Scalar.render, toList_quoted, List.cons_append, readScalar, hread, Option.map_some]
  | number n =>
    have hread := readNumber_toString n hc rest
    obtain ⟨d, ds, htext, hd⟩ := head_toString n
    simp only [Scalar.render]
    rw [htext, List.cons_append] at hread ⊢
    have hne : d ≠ '\x22' := by
      rintro rfl
      exact absurd hd (by decide)
    simp only [readScalar]
    split
    · next h => exact absurd (List.cons.inj h).1 hne
    · rw [hread]
      rfl

theorem readMember_render {member : String × Scalar} (hmember : IsPlainMember member) {c : Char}
    (hc : c.isDigit = false) (rest : List Char) :
    readMember ((renderMember member).toList ++ c :: rest) = some (member, c :: rest) := by
  have htext : (renderMember member).toList ++ c :: rest
      = (quoted member.1).toList ++ ':' :: (member.2.render.toList ++ c :: rest) := by
    simp [renderMember]
  rw [htext]
  simp only [readMember, readString_quoted hmember.1, readScalar_render hmember.2 hc,
    Option.map_some]

section Items

variable {α : Type} {item : Reader α} {render : α → String} {close : Char} {xs : List α}

theorem length_le_intercalate {l : List String} (h : ∀ s ∈ l, s.toList ≠ []) :
    l.length ≤ (",".intercalate l).toList.length := by
  induction l with
  | nil => simp
  | cons s l ih =>
    have hs : 0 < s.toList.length := List.length_pos_of_ne_nil (h s List.mem_cons_self)
    have hl := ih fun t ht => h t (List.mem_cons_of_mem _ ht)
    cases l with
    | nil =>
      rw [String.intercalate_singleton]
      exact hs
    | cons t l =>
      rw [String.intercalate_cons_cons]
      simp only [String.toList_append, List.length_append, List.length_cons] at hl ⊢
      omega

/-- Reading what has been rendered, if each item is read up to the next comma or bracket. -/
theorem readItems_intercalate
    (hitem : ∀ x ∈ xs, ∀ c rest, c = ',' ∨ c = close →
      item ((render x).toList ++ c :: rest) = some (x, c :: rest))
    (hclose : close ≠ ',') (hne : xs ≠ []) {fuel : ℕ} (hfuel : xs.length ≤ fuel)
    (rest : List Char) :
    readItems item close fuel ((",".intercalate (xs.map render)).toList ++ close :: rest)
      = some (xs, rest) := by
  induction xs generalizing fuel with
  | nil => exact absurd rfl hne
  | cons x xs ih =>
    cases fuel with
    | zero => simp at hfuel
    | succ fuel =>
      cases xs with
      | nil =>
        simp only [List.map_cons, List.map_nil, String.intercalate_singleton, readItems,
          hitem x List.mem_cons_self close rest (Or.inr rfl), if_neg hclose, if_true]
      | cons y ys =>
        have hrest := ih (fun z hz => hitem z (List.mem_cons_of_mem _ hz)) (by simp)
          (Nat.le_of_succ_le_succ hfuel)
        have htext : (",".intercalate ((x :: y :: ys).map render)).toList ++ close :: rest
            = (render x).toList ++ ',' ::
              ((",".intercalate ((y :: ys).map render)).toList ++ close :: rest) := by
          simp only [List.map_cons, String.intercalate_cons_cons, String.toList_append]
          simp
        rw [htext]
        simp only [readItems, hitem x List.mem_cons_self ',' _ (Or.inl rfl), if_true, hrest,
          Option.map_some]

theorem readBracketed_intercalate {opening : Char}
    (hitem : ∀ x ∈ xs, ∀ c rest, c = ',' ∨ c = close →
      item ((render x).toList ++ c :: rest) = some (x, c :: rest))
    (hhead : ∀ x ∈ xs, ∃ c cs, (render x).toList = c :: cs ∧ c ≠ close)
    (hclose : close ≠ ',') (rest : List Char) :
    readBracketed item opening close
        (opening :: ((",".intercalate (xs.map render)).toList ++ close :: rest))
      = some (xs, rest) := by
  cases xs with
  | nil => simp [readBracketed]
  | cons x xs =>
    obtain ⟨c, cs, hx, hc⟩ := hhead x List.mem_cons_self
    have hlength : (x :: xs).length
        ≤ ((",".intercalate ((x :: xs).map render)).toList ++ close :: rest).length := by
      have hle := length_le_intercalate (l := (x :: xs).map render) (by
        intro s hs
        obtain ⟨y, hy, rfl⟩ := List.mem_map.mp hs
        obtain ⟨d, ds, hd, -⟩ := hhead y hy
        simp [hd])
      rw [List.length_map] at hle
      rw [List.length_append]
      omega
    have hread := readItems_intercalate hitem hclose (by simp) hlength rest
    obtain ⟨tail, htail⟩ : ∃ tail,
        (",".intercalate ((x :: xs).map render)).toList ++ close :: rest = c :: tail := by
      cases xs with
      | nil => exact ⟨cs ++ close :: rest, by simp [hx]⟩
      | cons y ys =>
        refine ⟨cs ++ ",".toList ++ (",".intercalate ((y :: ys).map render)).toList
          ++ close :: rest, ?_⟩
        simp only [List.map_cons, String.intercalate_cons_cons, String.toList_append, hx,
          List.cons_append]
    rw [htail] at hread ⊢
    simp only [readBracketed, ne_eq, not_true_eq_false, if_false, if_neg hc]
    exact hread

end Items

theorem readObject_render {o : Object} (ho : ∀ member ∈ o, IsPlainMember member)
    (rest : List Char) : readObject ((renderObject o).toList ++ rest) = some (o, rest) := by
  have htext : (renderObject o).toList ++ rest
      = '\x7b' :: ((",".intercalate (o.map renderMember)).toList ++ '\x7d' :: rest) := by
    simp [renderObject]
  rw [htext]
  refine readBracketed_intercalate ?_ ?_ (by decide) rest
  · rintro member hmember c rest (rfl | rfl)
    · exact readMember_render (ho member hmember) (by decide) rest
    · exact readMember_render (ho member hmember) (by decide) rest
  · intro member _
    exact ⟨'\x22', member.1.toList ++ '\x22' :: ':' :: member.2.render.toList,
      by simp [renderMember, toList_quoted], by decide⟩

/-- What has been rendered is read back. -/
theorem readArray_render {objects : List Object}
    (hplain : ∀ o ∈ objects, ∀ member ∈ o, IsPlainMember member) :
    readArray (renderArray objects) = some objects := by
  have htext : (renderArray objects).toList
      = '[' :: ((",".intercalate (objects.map renderObject)).toList ++ ']' :: []) := by
    simp [renderArray]
  have hread : readBracketed readObject '[' ']' (renderArray objects).toList
      = some (objects, []) := by
    rw [htext]
    refine readBracketed_intercalate ?_ ?_ (by decide) []
    · intro o ho c rest _
      exact readObject_render (hplain o ho) (c :: rest)
    · intro o _
      exact ⟨'\x7b', (",".intercalate (o.map renderMember)).toList ++ ['\x7d'],
        by simp [renderObject], by decide⟩
  rw [readArray, hread]

end M3bp.JsonText
