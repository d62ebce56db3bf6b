import Mathlib.Data.List.Induction
import Mathlib.Data.List.Lex
import Mathlib.Data.List.Sort

/-!
Lists that are sorted by a weight, with marks at the entries whose weight is
that of their left neighbour. Sorted pieces whose weights increase strictly from
piece to piece can be put side by side, with their marks.
-/
namespace M3bp.MarkedSort

section Marks

variable {α β : Type} [DecidableEq β]

def tailMarks (w : α → β) : α → List α → List Bool
  | _, [] => []
  | previous, a :: l => decide (w a = w previous) :: tailMarks w a l

/-- Whether an entry has the weight of the entry before it. -/
def leftMarks (w : α → β) : List α → List Bool
  | [] => []
  | a :: l => false :: tailMarks w a l

theorem tailMarks_append (w : α → β) (a : α) (l l' : List α)
    (h : ∀ x ∈ a :: l, ∀ y ∈ l', w x ≠ w y) :
    tailMarks w a (l ++ l') = tailMarks w a l ++ leftMarks w l' := by
  induction l generalizing a with
  | nil =>
    cases l' with
    | nil => rfl
    | cons y l' =>
      have hne : w y ≠ w a := (h a List.mem_cons_self y List.mem_cons_self).symm
      simp [tailMarks, leftMarks, hne]
  | cons b l ih =>
    have htail := ih b fun x hx => h x (List.mem_cons_of_mem a hx)
    simp [tailMarks, htail]

theorem leftMarks_append (w : α → β) (l l' : List α) (h : ∀ x ∈ l, ∀ y ∈ l', w x ≠ w y) :
    leftMarks w (l ++ l') = leftMarks w l ++ leftMarks w l' := by
  cases l with
  | nil => rfl
  | cons a l => simp [leftMarks, tailMarks_append w a l l' h]

theorem tailMarks_congr {γ : Type} [DecidableEq γ] {w : α → β} {w' : α → γ} (a : α) (l : List α)
    (h : ∀ x ∈ a :: l, ∀ y ∈ a :: l, w x = w y ↔ w' x = w' y) :
    tailMarks w a l = tailMarks w' a l := by
  induction l generalizing a with
  | nil => rfl
  | cons b l ih =>
    have htail := ih b fun x hx y hy =>
      h x (List.mem_cons_of_mem a hx) y (List.mem_cons_of_mem a hy)
    have hhead := h b (by simp) a (by simp)
    simp [tailMarks, htail, hhead]

theorem leftMarks_congr {γ : Type} [DecidableEq γ] {w : α → β} {w' : α → γ} (l : List α)
    (h : ∀ x ∈ l, ∀ y ∈ l, w x = w y ↔ w' x = w' y) : leftMarks w l = leftMarks w' l := by
  cases l with
  | nil => rfl
  | cons a l => simp [leftMarks, tailMarks_congr a l h]

theorem getElem?_tailMarks (w : α → β) (a : α) (l : List α) (i : ℕ) :
    (tailMarks w a l)[i]? = some true ↔
      ∃ x y, (a :: l)[i]? = some x ∧ (a :: l)[i + 1]? = some y ∧ w y = w x := by
  induction l generalizing a i with
  | nil => simp [tailMarks]
  | cons b l ih =>
    cases i with
    | zero => simp [tailMarks]
    | succ i => simpa [tailMarks] using ih b i

/-- The marks in terms of neighbours. -/
theorem getElem?_leftMarks (w : α → β) (l : List α) (i : ℕ) :
    (leftMarks w l)[i]? = some true ↔
      0 < i ∧ ∃ x y, l[i - 1]? = some x ∧ l[i]? = some y ∧ w y = w x := by
  cases l with
  | nil => simp [leftMarks]
  | cons a l =>
    cases i with
    | zero => simp [leftMarks]
    | succ i => simpa [leftMarks] using getElem?_tailMarks w a l i

/-- A marked entry joins the group of the entry before it. -/
def addToGroups (gs : List (List α)) (r : α × Bool) : List (List α) :=
  match gs.getLast?, r.2 with
  | some g, true => gs.dropLast ++ [g ++ [r.1]]
  | _, _ => gs ++ [[r.1]]

def groupsOf (l : List (α × Bool)) : List (List α) := l.foldl addToGroups []

end Marks

variable {α β : Type} [LinearOrder β]

/-- `out` is `input`, sorted by the weight `w`, and `marks` belong to it. -/
structure Sorted (w : α → β) (input out : List α) (marks : List Bool) : Prop where
  perm : out.Perm input
  pairwise : out.Pairwise fun a b => w a ≤ w b
  marks_eq : marks = leftMarks w out

theorem Sorted.head_unmarked {w : α → β} {input out : List α} {marks : List Bool}
    (h : Sorted w input out marks) : ∀ r ∈ (out.zip marks).head?, r.2 = false := by
  rw [h.marks_eq]
  cases out with
  | nil => simp
  | cons a out => simp [leftMarks]

/-- Another weight that orders the entries in the same way. -/
theorem Sorted.congr {γ : Type} [LinearOrder γ] {w : α → β} {w' : α → γ} {input out : List α}
    {marks : List Bool} (h : Sorted w input out marks)
    (hle : ∀ x ∈ input, ∀ y ∈ input, w x ≤ w y ↔ w' x ≤ w' y) : Sorted w' input out marks := by
  have hout : ∀ x ∈ out, ∀ y ∈ out, w x ≤ w y ↔ w' x ≤ w' y := fun x hx y hy =>
    hle x (h.perm.mem_iff.mp hx) y (h.perm.mem_iff.mp hy)
  refine ⟨h.perm, ?_, ?_⟩
  · exact h.pairwise.imp_of_mem fun {x y} hx hy hxy => (hout x hx y hy).mp hxy
  · rw [h.marks_eq]
    refine leftMarks_congr out fun x hx y hy => ?_
    rw [le_antisymm_iff, le_antisymm_iff, hout x hx y hy, hout y hy x hx]

theorem Sorted.append {w : α → β} {input input' out out' : List α} {marks marks' : List Bool}
    (h : Sorted w input out marks) (h' : Sorted w input' out' marks')
    (hlt : ∀ x ∈ input, ∀ y ∈ input', w x < w y) :
    Sorted w (input ++ input') (out ++ out') (marks ++ marks') := by
  have hout : ∀ x ∈ out, ∀ y ∈ out', w x < w y := fun x hx y hy =>
    hlt x (h.perm.mem_iff.mp hx) y (h'.perm.mem_iff.mp hy)
  refine ⟨h.perm.append h'.perm, ?_, ?_⟩
  · exact List.pairwise_append.mpr
      ⟨h.pairwise, h'.pairwise, fun x hx y hy => (hout x hx y hy).le⟩
  · rw [h.marks_eq, h'.marks_eq, leftMarks_append w out out' fun x hx y hy => (hout x hx y hy).ne]

/-! The groups of a marked list. -/

section Groups

variable {α : Type}

theorem groupsOf_concat (l : List (α × Bool)) (r : α × Bool) :
    groupsOf (l ++ [r]) = addToGroups (groupsOf l) r := by
  simp [groupsOf]

theorem addToGroups_start (gs : List (List α)) (a : α) :
    addToGroups gs (a, false) = gs ++ [[a]] := by
  unfold addToGroups
  split
  · next h => cases h
  · rfl

theorem addToGroups_join {gs : List (List α)} {g : List α} (a : α) :
    addToGroups (gs ++ [g]) (a, true) = gs ++ [g ++ [a]] := by
  simp [addToGroups]

theorem groupsOf_ne_nil {l : List (α × Bool)} (h : l ≠ []) : groupsOf l ≠ [] := by
  rcases List.eq_nil_or_concat l with rfl | ⟨l', r, rfl⟩
  · exact absurd rfl h
  · rw [List.concat_eq_append, groupsOf_concat]
    unfold addToGroups
    split <;> simp

theorem nonempty_of_mem_groupsOf (l : List (α × Bool)) : ∀ G ∈ groupsOf l, G ≠ [] := by
  induction l using List.reverseRecOn with
  | nil => simp [groupsOf]
  | append_singleton l r ih =>
    intro G hG
    rw [groupsOf_concat] at hG
    unfold addToGroups at hG
    split at hG
    · rcases List.mem_append.mp hG with hG | hG
      · exact ih G (List.dropLast_subset _ hG)
      · rw [List.mem_singleton.mp hG]
        simp
    · rcases List.mem_append.mp hG with hG | hG
      · exact ih G hG
      · rw [List.mem_singleton.mp hG]
        simp

theorem flatten_groupsOf (l : List (α × Bool)) : (groupsOf l).flatten = l.map Prod.fst := by
  induction l using List.reverseRecOn with
  | nil => rfl
  | append_singleton l r ih =>
    rw [groupsOf_concat, List.map_append, ← ih]
    obtain ⟨a, mark⟩ := r
    cases mark with
    | false => simp [addToGroups_start]
    | true =>
      rcases List.eq_nil_or_concat (groupsOf l) with hnil | ⟨gs, g, hgs⟩
      · simp [hnil, addToGroups]
      · rw [hgs, List.concat_eq_append, addToGroups_join]
        simp

/-- Where the groups of a marked list begin. -/
def starts (l : List (α × Bool)) : List ℕ :=
  (List.range l.length).filter fun i => (l[i]?).any fun r => !r.2

/-- Where group `g` begins; behind the last group it is the end of the list. -/
def startOf (l : List (α × Bool)) (g : ℕ) : ℕ := (starts l).getD g l.length

theorem starts_concat (l : List (α × Bool)) (r : α × Bool) :
    starts (l ++ [r]) = starts l ++ if r.2 then [] else [l.length] := by
  have hbefore : (List.range l.length).filter (fun i => ((l ++ [r])[i]?).any fun r => !r.2) =
      starts l := by
    refine List.filter_congr fun i hi => ?_
    rw [List.getElem?_append_left (List.mem_range.mp hi)]
  rw [starts, List.length_append, List.length_singleton, List.range_succ, List.filter_append, hbefore]
  cases hr : r.2 <;> simp [hr]

theorem startOf_le (l : List (α × Bool)) (g : ℕ) : startOf l g ≤ l.length := by
  rw [startOf, List.getD_eq_getElem?_getD]
  rcases hg : (starts l)[g]? with _ | i
  · simp
  · have hmem : i ∈ starts l := List.mem_of_getElem? hg
    have hlt := List.mem_range.mp (List.mem_filter.mp hmem).1
    simpa using hlt.le

theorem startOf_length (l : List (α × Bool)) : startOf l (starts l).length = l.length := by
  simp [startOf]

/-- A group reaches from its start to the start of the next one. -/
theorem groupsOf_eq_starts {l : List (α × Bool)} (hhead : ∀ r ∈ l.head?, r.2 = false) :
    (groupsOf l).length = (starts l).length ∧ ∀ g < (groupsOf l).length,
      (groupsOf l)[g]? = some (((l.take (startOf l (g + 1))).drop (startOf l g)).map Prod.fst) := by
  induction l using List.reverseRecOn with
  | nil => exact ⟨rfl, fun g hg => absurd hg (by simp [groupsOf])⟩
  | append_singleton l r ih =>
    have hl : ∀ x ∈ l.head?, x.2 = false := by
      intro x hx
      refine hhead x ?_
      rw [List.head?_append, hx]
      rfl
    obtain ⟨hlength, hgroups⟩ := ih hl
    obtain ⟨a, mark⟩ := r
    have hle := startOf_le l
    cases mark with
    | false =>
      -- the new group begins where the list has ended so far
      have hstarts := starts_concat l (a, false)
      simp only [Bool.false_eq_true, if_false] at hstarts
      have hkeep : ∀ g ≤ (starts l).length, startOf (l ++ [(a, false)]) g = startOf l g := by
        intro g hg
        rw [startOf, startOf, hstarts]
        rcases Nat.eq_or_lt_of_le hg with rfl | hlt
        · simp
        · simp [List.getD_eq_getElem?_getD, List.getElem?_append_left hlt, List.getElem?_eq_getElem hlt]
      have hlast : startOf (l ++ [(a, false)]) ((starts l).length + 1) = l.length + 1 := by
        simp [startOf, hstarts]
      refine ⟨by simp [groupsOf_concat, addToGroups_start, hstarts, hlength], fun g hg => ?_⟩
      simp only [groupsOf_concat, addToGroups_start, List.length_append, List.length_singleton] at hg ⊢
      rcases Nat.lt_succ_iff_lt_or_eq.mp hg with hlt | hlast'
      · rw [List.getElem?_append_left hlt, hgroups g hlt, hkeep g (by omega), hkeep (g + 1) (by omega),
          List.take_append_of_le_length (hle _)]
      · rw [hlast', List.getElem?_append_right le_rfl, hlength, hkeep _ le_rfl, hlast, startOf_length,
          List.take_of_length_le (by simp)]
        simp
    | true =>
      have hne : l ≠ [] := by
        rintro rfl
        cases hhead (a, true) rfl
      obtain ⟨gs, G, hgs⟩ := (List.eq_nil_or_concat (groupsOf l)).resolve_left (groupsOf_ne_nil hne)
      rw [List.concat_eq_append] at hgs
      have hstarts := starts_concat l (a, true)
      simp only [if_true, List.append_nil] at hstarts
      have hkeep : ∀ g < (starts l).length, startOf (l ++ [(a, true)]) g = startOf l g := by
        intro g hg
        rw [startOf, startOf, hstarts]
        simp [List.getD_eq_getElem?_getD, List.getElem?_eq_getElem hg]
      have hlast : startOf (l ++ [(a, true)]) (starts l).length = l.length + 1 := by
        simp [startOf, hstarts]
      rw [hgs] at hlength hgroups
      have hcount : gs.length + 1 = (starts l).length := by simpa using hlength
      refine ⟨by simp [groupsOf_concat, hgs, addToGroups_join, hstarts, hcount], fun g hg => ?_⟩
      simp only [groupsOf_concat, hgs, addToGroups_join] at hg ⊢
      have hg' : g < (gs ++ [G]).length := by simpa using hg
      have hold := hgroups g hg'
      rw [List.length_append, List.length_singleton] at hg'
      rcases Nat.lt_succ_iff_lt_or_eq.mp hg' with hlt | hlast'
      · rw [List.getElem?_append_left hlt] at hold ⊢
        rw [hold, hkeep g (by omega), hkeep (g + 1) (by omega),
          List.take_append_of_le_length (hle _)]
      · -- the last group takes the entry in
        rw [hlast', List.getElem?_append_right le_rfl, hcount, startOf_length, List.take_length] at hold
        rw [hlast', List.getElem?_append_right le_rfl, hkeep _ (by omega), hcount, hlast,
          List.take_of_length_le (by simp), List.drop_append_of_le_length (hle _), List.map_append]
        simp only [Nat.sub_self, List.getElem?_cons_zero, Option.some.injEq] at hold ⊢
        rw [hold]
        rfl

end Groups

/-- Groups of equal weight, in strictly increasing order of the weight. -/
structure Grouped (w : α → β) (l : List α) (gs : List (List α)) : Prop where
  flatten : gs.flatten = l
  nonempty : ∀ g ∈ gs, g ≠ []
  within : ∀ g ∈ gs, ∀ a ∈ g, ∀ b ∈ g, w a = w b
  across : gs.Pairwise fun g g' => ∀ a ∈ g, ∀ b ∈ g', w a < w b

theorem leftMarks_concat (w : α → β) (l : List α) (a b : α) :
    leftMarks w (l ++ [a] ++ [b]) = leftMarks w (l ++ [a]) ++ [decide (w b = w a)] := by
  have htail : ∀ (l : List α) (c : α),
      tailMarks w c (l ++ [a] ++ [b]) = tailMarks w c (l ++ [a]) ++ [decide (w b = w a)] := by
    intro l
    induction l with
    | nil => intro c; simp [tailMarks]
    | cons d l ih => intro c; simpa [tailMarks] using ih d
  cases l with
  | nil => simp [leftMarks, tailMarks]
  | cons c l => simpa [leftMarks] using htail l c

theorem length_leftMarks (w : α → β) (l : List α) : (leftMarks w l).length = l.length := by
  have htail : ∀ (l : List α) (a : α), (tailMarks w a l).length = l.length := by
    intro l
    induction l with
    | nil => exact fun _ => rfl
    | cons b l ih => intro a; simp [tailMarks, ih b]
  cases l with
  | nil => rfl
  | cons a l => simp [leftMarks, htail]

/-- The marks of a sorted list cut it into its groups. -/
theorem grouped_of_pairwise (w : α → β) {l : List α} (h : l.Pairwise fun a b => w a ≤ w b) :
    Grouped w l (groupsOf (l.zip (leftMarks w l))) := by
  induction l using List.reverseRecOn with
  | nil => exact ⟨rfl, by simp [groupsOf, leftMarks], by simp [groupsOf, leftMarks],
      by simp [groupsOf, leftMarks]⟩
  | append_singleton l b ih =>
    obtain ⟨hl, -, hb⟩ := List.pairwise_append.mp h
    obtain ⟨hflatten, hne, hwithin, hacross⟩ := ih hl
    rcases List.eq_nil_or_concat l with rfl | ⟨l', a, rfl⟩
    · refine ⟨by simp [groupsOf, leftMarks, addToGroups], ?_, ?_, ?_⟩ <;>
        simp [groupsOf, leftMarks, addToGroups]
    · rw [List.concat_eq_append] at *
      have hzip : (l' ++ [a] ++ [b]).zip (leftMarks w (l' ++ [a] ++ [b])) =
          (l' ++ [a]).zip (leftMarks w (l' ++ [a])) ++ [(b, decide (w b = w a))] := by
        rw [leftMarks_concat, List.zip_append (length_leftMarks w _).symm]
        rfl
      rw [hzip, groupsOf_concat]
      set gs := groupsOf ((l' ++ [a]).zip (leftMarks w (l' ++ [a])))
      -- the last entry so far is in the last group
      obtain ⟨gs', g, hgs, ha⟩ : ∃ gs' g, gs = gs' ++ [g] ∧ a ∈ g := by
        rcases List.eq_nil_or_concat gs with hnil | ⟨gs', g, hconcat⟩
        · rw [hnil] at hflatten
          simp at hflatten
        · rw [List.concat_eq_append] at hconcat
          refine ⟨gs', g, hconcat, ?_⟩
          have hg : g ≠ [] := hne g (by rw [hconcat]; simp)
          rw [hconcat, List.flatten_append, List.flatten_singleton] at hflatten
          have hlast := congrArg List.getLast? hflatten
          rw [List.getLast?_append_of_ne_nil _ hg, List.getLast?_concat] at hlast
          exact List.mem_of_getLast? hlast
      have hle : w a ≤ w b := hb a (by simp) b (by simp)
      rw [hgs] at hflatten hne hwithin hacross
      obtain ⟨hbefore, -, hlt⟩ := List.pairwise_append.mp hacross
      have hlt' : ∀ g' ∈ gs', ∀ x ∈ g', ∀ y ∈ g, w x < w y := fun g' hg' =>
        hlt g' hg' g (by simp)
      have hsame : ∀ x ∈ g, w x = w a := fun x hx => hwithin g (by simp) x hx a ha
      by_cases heq : w b = w a
      · rw [decide_eq_true heq, hgs, addToGroups_join]
        refine ⟨by simp [← hflatten], ?_, ?_, ?_⟩
        · intro G hG
          rcases List.mem_append.mp hG with hG | hG
          · exact hne G (List.mem_append_left _ hG)
          · rw [List.mem_singleton.mp hG]
            simp
        · intro G hG
          rcases List.mem_append.mp hG with hG | hG
          · exact hwithin G (List.mem_append_left _ hG)
          · rw [List.mem_singleton.mp hG]
            have hall : ∀ x ∈ g ++ [b], w x = w a := by
              intro x hx
              rcases List.mem_append.mp hx with hx | hx
              · exact hsame x hx
              · rw [List.mem_singleton.mp hx, heq]
            intro x hx y hy
            rw [hall x hx, hall y hy]
        · refine List.pairwise_append.mpr ⟨hbefore, List.pairwise_singleton _ _, ?_⟩
          intro g' hg' G hG x hx y hy
          rw [List.mem_singleton.mp hG] at hy
          rcases List.mem_append.mp hy with hy | hy
          · exact hlt' g' hg' x hx y hy
          · rw [List.mem_singleton.mp hy, heq]
            exact hlt' g' hg' x hx a ha
      · rw [decide_eq_false heq, addToGroups_start, hgs]
        have hlast : w a < w b := lt_of_le_of_ne hle (Ne.symm heq)
        refine ⟨by simp [← hflatten], ?_, ?_, ?_⟩
        · intro G hG
          rcases List.mem_append.mp hG with hG | hG
          · exact hne G hG
          · rw [List.mem_singleton.mp hG]
            simp
        · intro G hG
          rcases List.mem_append.mp hG with hG | hG
          · exact hwithin G hG
          · rw [List.mem_singleton.mp hG]
            simp
        · refine List.pairwise_append.mpr ⟨hacross, List.pairwise_singleton _ _, ?_⟩
          intro G hG G' hG' x hx y hy
          rw [List.mem_singleton.mp hG'] at hy
          rw [List.mem_singleton.mp hy]
          rcases List.mem_append.mp hG with hG | hG
          · exact (hlt' G hG x hx a ha).trans hlast
          · rw [List.mem_singleton.mp hG] at hx
            rw [hsame x hx]
            exact hlast

namespace Grouped

variable {w : α → β} {l : List α} {gs : List (List α)}

theorem exists_index (h : Grouped w l gs) {a : α} (ha : a ∈ l) :
    ∃ (g : ℕ) (hg : g < gs.length), a ∈ gs[g] := by
  rw [← h.flatten] at ha
  obtain ⟨G, hG, ha⟩ := List.mem_flatten.mp ha
  obtain ⟨g, hg, rfl⟩ := List.mem_iff_getElem.mp hG
  exact ⟨g, hg, ha⟩

theorem mem_of_mem (h : Grouped w l gs) {g : ℕ} (hg : g < gs.length) {a : α} (ha : a ∈ gs[g]) :
    a ∈ l := by
  rw [← h.flatten]
  exact List.mem_flatten.mpr ⟨gs[g], List.getElem_mem hg, ha⟩

theorem lt_of_lt (h : Grouped w l gs) {g g' : ℕ} (hg' : g' < gs.length) (hlt : g < g') {a b : α}
    (ha : a ∈ gs[g]) (hb : b ∈ gs[g']) : w a < w b :=
  List.pairwise_iff_getElem.mp h.across g g' (hlt.trans hg') hg' hlt a ha b hb

theorem index_eq (h : Grouped w l gs) {g g' : ℕ} (hg : g < gs.length) (hg' : g' < gs.length)
    {a b : α} (ha : a ∈ gs[g]) (hb : b ∈ gs[g']) (hab : w a = w b) : g = g' := by
  rcases Nat.lt_trichotomy g g' with hlt | heq | hgt
  · exact absurd hab (h.lt_of_lt hg' hlt ha hb).ne
  · exact heq
  · exact absurd hab (h.lt_of_lt hg hgt hb ha).ne'

/-- A group is everything of one weight. -/
theorem eq_filter (h : Grouped w l gs) {g : ℕ} (hg : g < gs.length) {a : α} (ha : a ∈ gs[g])
    {p : α → Bool} (hp : ∀ x ∈ l, p x = true ↔ w x = w a) : l.filter p = gs[g] := by
  have hsplit : l = (gs.take g).flatten ++ (gs[g] ++ (gs.drop (g + 1)).flatten) := by
    rw [← h.flatten]
    conv_lhs => rw [← List.take_append_drop g gs, List.drop_eq_getElem_cons hg]
    rw [List.flatten_append, List.flatten_cons]
  have hacross := h.across
  rw [← List.take_append_drop g gs, List.drop_eq_getElem_cons hg] at hacross
  obtain ⟨-, hrest, hbefore⟩ := List.pairwise_append.mp hacross
  have hafter := (List.pairwise_cons.mp hrest).1
  have hmem : ∀ x, x ∈ (gs.take g).flatten ∨ x ∈ gs[g] ∨ x ∈ (gs.drop (g + 1)).flatten → x ∈ l := by
    intro x hx
    rw [hsplit]
    simpa using hx
  have hleft : (gs.take g).flatten.filter p = [] := by
    refine List.filter_eq_nil_iff.mpr fun x hx hpx => ?_
    have heq := (hp x (hmem x (Or.inl hx))).mp hpx
    obtain ⟨G, hG, hx⟩ := List.mem_flatten.mp hx
    exact (hbefore G hG gs[g] List.mem_cons_self x hx a ha).ne heq
  have hright : (gs.drop (g + 1)).flatten.filter p = [] := by
    refine List.filter_eq_nil_iff.mpr fun x hx hpx => ?_
    have heq := (hp x (hmem x (Or.inr (Or.inr hx)))).mp hpx
    obtain ⟨G, hG, hx⟩ := List.mem_flatten.mp hx
    exact (hafter G hG a ha x hx).ne' heq
  have hmiddle : gs[g].filter p = gs[g] := by
    refine List.filter_eq_self.mpr fun x hx => ?_
    exact (hp x (hmem x (Or.inr (Or.inl hx)))).mpr (h.within gs[g] (List.getElem_mem hg) x hx a ha)
  rw [hsplit, List.filter_append, List.filter_append, hleft, hright, hmiddle, List.nil_append,
    List.append_nil]

end Grouped

end M3bp.MarkedSort
