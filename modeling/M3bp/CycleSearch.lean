import M3bp.Acyclic

/-!
Depth-first search for a cycle, over marks that say which nodes have been entered
and which are on the current path. A node that has been left reaches only nodes
that have been left, and none of them lies on a cycle. The search is bounded by the
number of nodes that have not been entered.
-/
namespace M3bp.CycleSearch

open Relation

structure Marks where
  done : List Bool
  inStack : List Bool
  deriving DecidableEq, Repr

namespace Marks

def unmarked (n : ℕ) : Marks :=
  { done := List.replicate n false, inStack := List.replicate n false }

def enter (m : Marks) (u : ℕ) : Marks :=
  { done := m.done.set u true, inStack := m.inStack.set u true }

def leave (m : Marks) (u : ℕ) : Marks := { m with inStack := m.inStack.set u false }

def IsDone (m : Marks) (u : ℕ) : Prop := m.done[u]? = some true

def OnStack (m : Marks) (u : ℕ) : Prop := m.inStack[u]? = some true

def Finished (m : Marks) (u : ℕ) : Prop := m.IsDone u ∧ ¬ m.OnStack u

/-- How many nodes have not been entered. -/
def unentered (m : Marks) : ℕ := m.done.count false

end Marks

/-- One call after the other, up to the first that finds a cycle. -/
def visitAll (visit : ℕ → Marks → Option (Bool × Marks)) : List ℕ → Marks → Option (Bool × Marks)
  | [], m => some (false, m)
  | v :: vs, m => do
    let (found, m) ← visit v m
    if found then some (true, m) else visitAll visit vs m

section Search

-- the nodes that follow a node, or `none` for what is no node
variable (next : ℕ → Option (List ℕ))

/-- `none` stands for an access out of range or calls nested deeper than the bound. -/
def visit : ℕ → ℕ → Marks → Option (Bool × Marks)
  | 0, _, _ => none
  | fuel + 1, u, m =>
    match m.inStack[u]?, m.done[u]?, next u with
    | some true, _, _ => some (true, m)
    | some false, some true, _ => some (false, m)
    | some false, some false, some vs => do
      let (found, m) ← visitAll (visit fuel) vs (m.enter u)
      if found then some (true, m) else some (false, m.leave u)
    | _, _, _ => none

/-- The loop over all nodes. -/
def search (fuel : ℕ) : List ℕ → Marks → Option Bool
  | [], _ => some false
  | u :: us, m =>
    match m.done[u]? with
    | none => none
    | some true => search fuel us m
    | some false => do
      let (found, m) ← visit next fuel u m
      if found then some true else search fuel us m

/-- `v` follows `u`. -/
def Leads (u v : ℕ) : Prop := ∃ vs, next u = some vs ∧ v ∈ vs

def HasCycle : Prop := ∃ u, TransGen (Leads next) u u

/-- What has been left is closed and without cycles. -/
structure Searched (n : ℕ) (m : Marks) : Prop where
  done_length : m.done.length = n
  inStack_length : m.inStack.length = n
  entered : ∀ u, m.OnStack u → m.IsDone u
  closed : ∀ u v, m.Finished u → Leads next u v → m.Finished v
  sound : ∀ u, m.Finished u → ¬ TransGen (Leads next) u u

end Search

/-- A call that finds nothing leaves the path as it was. -/
structure Extends (m m' : Marks) : Prop where
  inStack : m'.inStack = m.inStack
  done : ∀ u, m.IsDone u → m'.IsDone u
  unentered : m'.unentered ≤ m.unentered

theorem Extends.refl (m : Marks) : Extends m m := ⟨rfl, fun _ h => h, Nat.le_refl _⟩

theorem Extends.trans {m m' m'' : Marks} (h : Extends m m') (h' : Extends m' m'') :
    Extends m m'' :=
  ⟨h'.inStack.trans h.inStack, fun u hu => h'.done u (h.done u hu),
    Nat.le_trans h'.unentered h.unentered⟩

theorem Extends.onStack_iff {m m' : Marks} (h : Extends m m') (u : ℕ) :
    m'.OnStack u ↔ m.OnStack u := by
  rw [Marks.OnStack, Marks.OnStack, h.inStack]

theorem Extends.finished {m m' : Marks} (h : Extends m m') {u : ℕ} (hu : m.Finished u) :
    m'.Finished u :=
  ⟨h.done u hu.1, fun hstack => hu.2 ((h.onStack_iff u).mp hstack)⟩

section Marks

variable {m : Marks} {u x : ℕ}

theorem unentered_enter (hu : m.done[u]? = some false) :
    (m.enter u).unentered + 1 = m.unentered := by
  obtain ⟨hlt, hfalse⟩ := List.getElem?_eq_some_iff.mp hu
  have hpos : 0 < m.done.count false := by
    refine List.count_pos_iff.mpr ?_
    rw [← hfalse]
    exact List.getElem_mem hlt
  have hcount : (m.enter u).unentered = m.done.count false - 1 := by
    simp [Marks.unentered, Marks.enter, List.count_set hlt, hfalse]
  rw [hcount, Marks.unentered]
  omega

theorem onStack_enter (hu : u < m.inStack.length) :
    (m.enter u).OnStack x ↔ x = u ∨ m.OnStack x := by
  by_cases hx : u = x
  · subst hx
    simp [Marks.OnStack, Marks.enter, hu]
  · have hx' : ¬ x = u := fun h => hx h.symm
    simp [Marks.OnStack, Marks.enter, hx, hx']

theorem isDone_enter (hu : u < m.done.length) : (m.enter u).IsDone x ↔ x = u ∨ m.IsDone x := by
  by_cases hx : u = x
  · subst hx
    simp [Marks.IsDone, Marks.enter, hu]
  · have hx' : ¬ x = u := fun h => hx h.symm
    simp [Marks.IsDone, Marks.enter, hx, hx']

theorem onStack_leave : (m.leave u).OnStack x ↔ x ≠ u ∧ m.OnStack x := by
  by_cases hx : u = x
  · subst hx
    by_cases hlt : u < m.inStack.length <;> simp [Marks.OnStack, Marks.leave, hlt]
  · have hx' : ¬ x = u := fun h => hx h.symm
    simp [Marks.OnStack, Marks.leave, hx, hx']

end Marks

section Spec

variable {next : ℕ → Option (List ℕ)} {n fuel u : ℕ} {m m' : Marks}

/-- What a call may assume: every node on the path leads to `u`. -/
def OnPath (next : ℕ → Option (List ℕ)) (m : Marks) (u : ℕ) : Prop :=
  ∀ s, m.OnStack s → TransGen (Leads next) s u

/-- What a call returns. -/
def Returns (next : ℕ → Option (List ℕ)) (n : ℕ) (m : Marks) (nodes : List ℕ)
    (result : Option (Bool × Marks)) : Prop :=
  ∃ found m', result = some (found, m') ∧ (found = true → HasCycle next) ∧
    (found = false → Extends m m' ∧ Searched next n m' ∧ ∀ v ∈ nodes, m'.Finished v)

theorem Searched.finished_of_reach (h : Searched next n m) {v : ℕ} (hu : m.Finished u)
    (hreach : ReflTransGen (Leads next) u v) : m.Finished v := by
  induction hreach with
  | refl => exact hu
  | tail _ hstep ih => exact h.closed _ _ ih hstep

theorem Returns.of_cycle {nodes : List ℕ} {result : Option (Bool × Marks)}
    (hresult : result = some (true, m')) (hcycle : HasCycle next) :
    Returns next n m nodes result :=
  ⟨true, m', hresult, fun _ => hcycle, nofun⟩

theorem Returns.of_left {nodes : List ℕ} {result : Option (Bool × Marks)}
    (hresult : result = some (false, m')) (hextends : Extends m m') (h : Searched next n m')
    (hfinished : ∀ v ∈ nodes, m'.Finished v) : Returns next n m nodes result :=
  ⟨false, m', hresult, nofun, fun _ => ⟨hextends, h, hfinished⟩⟩

/-- Entering a node changes nothing for the nodes that have been left. -/
theorem Searched.enter (h : Searched next n m) (hu : u < n) (hnew : m.done[u]? = some false) :
    Searched next n (m.enter u) := by
  have hdone : u < m.done.length := by rwa [h.done_length]
  have hstack : u < m.inStack.length := by rwa [h.inStack_length]
  have hfinished : ∀ x, (m.enter u).Finished x ↔ m.Finished x := by
    intro x
    rw [Marks.Finished, isDone_enter hdone, onStack_enter hstack]
    constructor
    · rintro ⟨rfl | hx, hnot⟩
      · exact absurd (Or.inl rfl) hnot
      · exact ⟨hx, fun hon => hnot (Or.inr hon)⟩
    · rintro ⟨hx, hnot⟩
      refine ⟨Or.inr hx, ?_⟩
      rintro (rfl | hon)
      · rw [Marks.IsDone, hnew] at hx
        cases hx
      · exact hnot hon
  refine ⟨?_, ?_, ?_, ?_, ?_⟩
  · simp [Marks.enter, h.done_length]
  · simp [Marks.enter, h.inStack_length]
  · intro x hx
    rw [isDone_enter hdone]
    exact ((onStack_enter hstack).mp hx).imp_right (h.entered x)
  · intro x v hx hleads
    exact (hfinished v).mpr (h.closed x v ((hfinished x).mp hx) hleads)
  · intro x hx
    exact h.sound x ((hfinished x).mp hx)

/-- Leaving a node all of whose followers have been left. -/
theorem Searched.leave (h : Searched next n m) (hu : m.OnStack u)
    (hfollowers : ∀ v, Leads next u v → m.Finished v) : Searched next n (m.leave u) := by
  have hfinished : ∀ x, (m.leave u).Finished x ↔ x = u ∨ m.Finished x := by
    intro x
    rw [Marks.Finished, onStack_leave]
    constructor
    · rintro ⟨hx, hnot⟩
      by_cases hxu : x = u
      · exact Or.inl hxu
      · exact Or.inr ⟨hx, fun hon => hnot ⟨hxu, hon⟩⟩
    · rintro (rfl | hx)
      · exact ⟨h.entered x hu, fun hon => hon.1 rfl⟩
      · exact ⟨hx.1, fun hon => hx.2 hon.2⟩
  refine ⟨h.done_length, ?_, ?_, ?_, ?_⟩
  · simp [Marks.leave, h.inStack_length]
  · intro x hx
    exact h.entered x (onStack_leave.mp hx).2
  · intro x v hx hleads
    refine (hfinished v).mpr (Or.inr ?_)
    rcases (hfinished x).mp hx with rfl | hx
    · exact hfollowers v hleads
    · exact h.closed x v hx hleads
  · intro x hx hcycle
    rcases (hfinished x).mp hx with rfl | hx
    · -- a cycle through `x` would bring `x` among the nodes that have been left
      obtain ⟨v, hleads, hback⟩ := TransGen.head'_iff.mp hcycle
      exact (h.finished_of_reach (hfollowers v hleads) hback).2 hu
    · exact h.sound x hx hcycle

/-- The loop over the followers of a node, or over some of them. -/
theorem visitAll_spec (hvisit : ∀ v m, v < n → Searched next n m → m.unentered < fuel →
      OnPath next m v → Returns next n m [v] (visit next fuel v m)) (vs : List ℕ) (m : Marks)
    (hvs : ∀ v ∈ vs, v < n) (h : Searched next n m) (hfuel : m.unentered < fuel)
    (hpath : ∀ v ∈ vs, OnPath next m v) :
    Returns next n m vs (visitAll (visit next fuel) vs m) := by
  induction vs generalizing m with
  | nil => exact .of_left rfl (.refl m) h fun v hv => absurd hv List.not_mem_nil
  | cons v vs ih =>
    obtain ⟨found, m', hrun, htrue, hfalse⟩ := hvisit v m (hvs v List.mem_cons_self) h hfuel
      (hpath v List.mem_cons_self)
    cases found with
    | true =>
      have heq : visitAll (visit next fuel) (v :: vs) m = some (true, m') := by
        simp [visitAll, hrun]
      exact .of_cycle heq (htrue rfl)
    | false =>
      obtain ⟨hextends, h', hfinished⟩ := hfalse rfl
      have hpath' : ∀ x ∈ vs, OnPath next m' x := fun x hx s hs =>
        hpath x (List.mem_cons_of_mem _ hx) s ((hextends.onStack_iff s).mp hs)
      obtain ⟨found, m'', hrun', htrue', hfalse'⟩ := ih m'
        (fun x hx => hvs x (List.mem_cons_of_mem _ hx)) h'
        (Nat.lt_of_le_of_lt hextends.unentered hfuel) hpath'
      refine ⟨found, m'', ?_, htrue', fun hfound => ?_⟩
      · simp [visitAll, hrun, hrun']
      · obtain ⟨hextends', h'', hfinished'⟩ := hfalse' hfound
        refine ⟨hextends.trans hextends', h'', fun x hx => ?_⟩
        rcases List.mem_cons.mp hx with rfl | hx
        · exact hextends'.finished (hfinished x List.mem_cons_self)
        · exact hfinished' x hx

theorem unmarked_searched (next : ℕ → Option (List ℕ)) (n : ℕ) :
    Searched next n (Marks.unmarked n) := by
  have hdone : ∀ u, ¬ (Marks.unmarked n).IsDone u := by
    intro u hu
    simp [Marks.IsDone, Marks.unmarked, List.getElem?_replicate] at hu
  refine ⟨List.length_replicate, List.length_replicate, ?_, ?_, ?_⟩
  · intro u hu
    simp [Marks.OnStack, Marks.unmarked, List.getElem?_replicate] at hu
  · exact fun u v hu _ => absurd hu.1 (hdone u)
  · exact fun u hu => absurd hu.1 (hdone u)

variable (hnodes : ∀ u < n, ∃ vs, next u = some vs ∧ ∀ v ∈ vs, v < n)
include hnodes

/-- A call returns, and finds a cycle unless it leaves the node. -/
theorem visit_spec (u : ℕ) (m : Marks) (hu : u < n) (h : Searched next n m)
    (hfuel : m.unentered < fuel) (hpath : OnPath next m u) :
    Returns next n m [u] (visit next fuel u m) := by
  induction fuel generalizing u m with
  | zero => exact absurd hfuel (Nat.not_lt_zero _)
  | succ fuel ih =>
    obtain ⟨onStack, hstack⟩ : ∃ b, m.inStack[u]? = some b :=
      ⟨_, List.getElem?_eq_getElem (by rwa [h.inStack_length])⟩
    obtain ⟨isDone, hdone⟩ : ∃ b, m.done[u]? = some b :=
      ⟨_, List.getElem?_eq_getElem (by rwa [h.done_length])⟩
    obtain ⟨vs, hnext, hvs⟩ := hnodes u hu
    cases onStack with
    | true =>
      have heq : visit next (fuel + 1) u m = some (true, m) := by rw [visit, hstack]
      exact .of_cycle heq ⟨u, hpath u hstack⟩
    | false =>
      cases isDone with
      | true =>
        have heq : visit next (fuel + 1) u m = some (false, m) := by rw [visit, hstack, hdone]
        refine .of_left heq (.refl m) h fun v hv => ?_
        rw [List.mem_singleton.mp hv]
        refine ⟨hdone, fun hon => ?_⟩
        rw [Marks.OnStack, hstack] at hon
        cases hon
      | false =>
        have hentered := h.enter hu hdone
        have hcount := unentered_enter hdone
        have hlt : u < m.inStack.length := by rwa [h.inStack_length]
        have hpath' : ∀ v ∈ vs, OnPath next (m.enter u) v := by
          intro v hv s hs
          have hleads : Leads next u v := ⟨vs, hnext, hv⟩
          rcases (onStack_enter hlt).mp hs with rfl | hs
          · exact .single hleads
          · exact (hpath s hs).tail hleads
        obtain ⟨found, m', hrun, htrue, hfalse⟩ := visitAll_spec ih vs (m.enter u) hvs hentered
          (by omega) hpath'
        have heq : visit next (fuel + 1) u m =
            some (if found = true then (true, m') else (false, m'.leave u)) := by
          rw [visit, hstack, hdone, hnext]
          simp only [hrun, Option.bind_eq_bind, Option.bind_some]
          cases found <;> rfl
        cases found with
        | true => exact .of_cycle heq (htrue rfl)
        | false =>
          obtain ⟨hextends, h', hfinished⟩ := hfalse rfl
          have hon : m'.OnStack u := (hextends.onStack_iff u).mpr ((onStack_enter hlt).mpr (Or.inl rfl))
          have hleft : Searched next n (m'.leave u) := h'.leave hon fun v hleads => by
            obtain ⟨vs', hnext', hv⟩ := hleads
            rw [hnext] at hnext'
            cases hnext'
            exact hfinished v hv
          refine .of_left heq ?_ hleft ?_
          · refine ⟨?_, ?_, ?_⟩
            · -- `u` was not on the path before
              refine List.ext_getElem? fun x => ?_
              rw [Marks.leave, hextends.inStack, Marks.enter]
              by_cases hx : u = x
              · subst hx
                rw [hstack]
                simp [hlt]
              · simp [hx]
            · intro x hx
              refine hextends.done x ((isDone_enter ?_).mpr (Or.inr hx))
              rwa [h.done_length]
            · exact Nat.le_trans hextends.unentered (by omega)
          · intro v hv
            rw [List.mem_singleton.mp hv]
            exact ⟨h'.entered u hon, fun hx => (onStack_leave.mp hx).1 rfl⟩

/-- The loop over all nodes; between two rounds the path is empty. -/
theorem search_spec (hfuel : n < fuel) (us : List ℕ) (m : Marks) (hus : ∀ u ∈ us, u < n)
    (h : Searched next n m) (hempty : ∀ s, ¬ m.OnStack s) :
    ∃ found, search next fuel us m = some found ∧ (found = true → HasCycle next) ∧
      (found = false → ∀ u, m.IsDone u ∨ u ∈ us → ¬ TransGen (Leads next) u u) := by
  induction us generalizing m with
  | nil =>
    refine ⟨false, rfl, nofun, fun _ u hu => ?_⟩
    rcases hu with hu | hu
    · exact h.sound u ⟨hu, hempty u⟩
    · cases hu
  | cons u us ih =>
    have hu : u < n := hus u List.mem_cons_self
    have hrest : ∀ v ∈ us, v < n := fun v hv => hus v (List.mem_cons_of_mem _ hv)
    obtain ⟨isDone, hdone⟩ : ∃ b, m.done[u]? = some b :=
      ⟨_, List.getElem?_eq_getElem (by rwa [h.done_length])⟩
    cases isDone with
    | true =>
      obtain ⟨found, hrun, htrue, hfalse⟩ := ih m hrest h hempty
      refine ⟨found, ?_, htrue, fun hfound v hv => hfalse hfound v ?_⟩
      · rw [search, hdone]
        exact hrun
      · rcases hv with hv | hv
        · exact Or.inl hv
        · rcases List.mem_cons.mp hv with rfl | hv
          · exact Or.inl hdone
          · exact Or.inr hv
    | false =>
      have hbound : m.unentered < fuel := by
        refine Nat.lt_of_le_of_lt ?_ hfuel
        rw [← h.done_length]
        exact List.count_le_length
      obtain ⟨found, m', hrun, htrue, hfalse⟩ := visit_spec hnodes u m hu h hbound
        fun s hs => absurd hs (hempty s)
      cases found with
      | true =>
        refine ⟨true, ?_, fun _ => htrue rfl, nofun⟩
        rw [search, hdone]
        simp [hrun]
      | false =>
        obtain ⟨hextends, h', hfinished⟩ := hfalse rfl
        obtain ⟨found, hrun', htrue', hfalse'⟩ := ih m' hrest h' fun s hs =>
          hempty s ((hextends.onStack_iff s).mp hs)
        refine ⟨found, ?_, htrue', fun hfound v hv => hfalse' hfound v ?_⟩
        · rw [search, hdone]
          simp [hrun, hrun']
        · rcases hv with hv | hv
          · exact Or.inl (hextends.done v hv)
          · rcases List.mem_cons.mp hv with rfl | hv
            · exact Or.inl (hfinished v List.mem_cons_self).1
            · exact Or.inr hv

/-- The search ends, stays inside the nodes and finds exactly the cycles. -/
theorem search_iff (hfuel : n < fuel) (hnone : ∀ u, n ≤ u → next u = none) :
    ∃ found, search next fuel (List.range n) (Marks.unmarked n) = some found ∧
      (found = true ↔ HasCycle next) := by
  obtain ⟨found, hrun, htrue, hfalse⟩ := search_spec hnodes hfuel (List.range n) (Marks.unmarked n)
    (fun u hu => List.mem_range.mp hu) (unmarked_searched next n) fun s hs => by
      simp [Marks.OnStack, Marks.unmarked, List.getElem?_replicate] at hs
  refine ⟨found, hrun, htrue, ?_⟩
  rintro ⟨u, hcycle⟩
  cases found with
  | true => rfl
  | false =>
    refine absurd hcycle (hfalse rfl u (Or.inr (List.mem_range.mpr ?_)))
    obtain ⟨v, ⟨vs, hnext, -⟩, -⟩ := TransGen.head'_iff.mp hcycle
    by_contra hge
    rw [hnone u (Nat.le_of_not_lt hge)] at hnext
    cases hnext

end Spec

end M3bp.CycleSearch
