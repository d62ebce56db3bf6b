import M3bp.Counting
import M3bp.Transition

/-!
`LockedMemoryReference`, `MemoryReference` and the lock count of a `MemoryObject`.
Each special member function replaces what some variables refer to and calls
`unlock` and `lock` on the way. An object is destroyed when the last variable that
refers to it is gone. `unlock` decrements the count inside an `assert`, so that it
does nothing where assertions are compiled out.
-/
namespace M3bp.LockCount

open Transition

abbrev ObjectId := ℕ

inductive Build
  | assertions
  | ndebug
  deriving DecidableEq, Repr

/-- `none` is `NULL_IDENTIFIER`. -/
structure MemoryReference where
  memoryObject : Option ObjectId
  identifier : Option ObjectId
  deriving DecidableEq, Repr

/-- The variables of both classes in the order of their construction, `none` once they
are destroyed, and the objects with their counts. A destroyed object is kept with the
count that its destructor has found. -/
structure State where
  locked : List (Option (Option ObjectId))
  unlocked : List (Option MemoryReference)
  createdObjects : ℕ
  lockCount : ObjectId → ℕ
  destroyed : List (ObjectId × ℕ)
  asserted : Bool
  unlockCalls : List ObjectId

namespace State

def initial : State :=
  { locked := [], unlocked := [], createdObjects := 0, lockCount := fun _ => 0, destroyed := []
    asserted := false, unlockCalls := [] }

variable (s : State)

/-- `m_memory_object` of a locked reference. -/
def lockedObject (i : ℕ) : Option ObjectId := (s.locked[i]?).bind fun slot => slot.bind id

def reference (i : ℕ) : MemoryReference := ((s.unlocked[i]?).bind id).getD ⟨none, none⟩

def IsLocked (i : ℕ) : Prop := ∃ o, s.locked[i]? = some (some o)

def IsReference (i : ℕ) : Prop := ∃ r, s.unlocked[i]? = some (some r)

/-- The number of live locked references to an object. -/
def liveLocks (o : ObjectId) : ℕ := s.locked.count (some (some o))

/-- Some `shared_ptr` keeps the object alive. -/
def Held (o : ObjectId) : Prop :=
  some (some o) ∈ s.locked ∨ ∃ r, some r ∈ s.unlocked ∧ r.memoryObject = some o

instance (o : ObjectId) : Decidable (s.Held o) :=
  decidable_of_iff (some (some o) ∈ s.locked ∨ ∃ r ∈ s.unlocked, ∃ x ∈ r, x.memoryObject = some o) <| by
    simp only [Held, Option.mem_def]
    constructor
    · rintro (h | ⟨_, hr, x, rfl, hx⟩)
      · exact Or.inl h
      · exact Or.inr ⟨x, hr, hx⟩
    · rintro (h | ⟨r, hr, hx⟩)
      · exact Or.inl h
      · exact Or.inr ⟨some r, hr, r, rfl, hx⟩

end State

/-- The special member functions and `lock`, with the variables they are called on. A
constructor makes the next variable of its class. -/
inductive Op
  | lockedDefault
  | lockedCopy (source : ℕ)
  | lockedMove (source : ℕ)
  | lockedDestroy (target : ℕ)
  | lockedCopyAssign (target source : ℕ)
  | lockedMoveAssign (target source : ℕ)
  | pointer (target : ℕ)
  | referenceDefault
  | referenceAllocate
  | referenceFromLocked (source : ℕ)
  | referenceFromMovedLocked (source : ℕ)
  | referenceCopy (source : ℕ)
  | referenceMove (source : ℕ)
  | referenceCopyAssign (target source : ℕ)
  | referenceMoveAssign (target source : ℕ)
  | referenceDestroy (target : ℕ)
  | lock (source : ℕ)
  deriving DecidableEq, Repr

/-- What the caller has to see to: live variables, an assignment between distinct ones,
and no null reference where the object is used. -/
def Allowed (s : State) : Op → Prop
  | .lockedDefault | .referenceDefault | .referenceAllocate => True
  | .lockedCopy i | .lockedMove i | .lockedDestroy i | .referenceFromMovedLocked i => s.IsLocked i
  | .lockedCopyAssign d i | .lockedMoveAssign d i => s.IsLocked d ∧ s.IsLocked i ∧ d ≠ i
  | .pointer i | .referenceFromLocked i => (s.lockedObject i).isSome = true
  | .referenceCopy i | .referenceMove i | .referenceDestroy i | .lock i => s.IsReference i
  | .referenceCopyAssign d i | .referenceMoveAssign d i =>
    s.IsReference d ∧ s.IsReference i ∧ d ≠ i

/-- The variables after a member function, and the objects on which it calls `unlock` and
then `lock`. -/
structure Change where
  locked : List (Option (Option ObjectId))
  unlocked : List (Option MemoryReference)
  unlock : Option ObjectId := none
  lock : Option ObjectId := none
  allocated : ℕ := 0
  pointer : Option ObjectId := none

/-- The identifier that a reference takes from a locked one. -/
def referenceTo (o : Option ObjectId) : MemoryReference := { memoryObject := o, identifier := o }

def change (s : State) : Op → Change
  | .lockedDefault => { locked := s.locked ++ [some none], unlocked := s.unlocked }
  | .lockedCopy i =>
    { locked := s.locked ++ [some (s.lockedObject i)]
      unlocked := s.unlocked
      lock := s.lockedObject i }
  | .lockedMove i =>
    { locked := s.locked.set i (some none) ++ [some (s.lockedObject i)], unlocked := s.unlocked }
  | .lockedDestroy i =>
    { locked := s.locked.set i none, unlocked := s.unlocked, unlock := s.lockedObject i }
  | .lockedCopyAssign d i =>
    { locked := s.locked.set d (some (s.lockedObject i))
      unlocked := s.unlocked
      unlock := s.lockedObject d
      lock := s.lockedObject i }
  | .lockedMoveAssign d i =>
    { locked := (s.locked.set d (some (s.lockedObject i))).set i (some none)
      unlocked := s.unlocked
      unlock := s.lockedObject d }
  | .pointer i => { locked := s.locked, unlocked := s.unlocked, pointer := s.lockedObject i }
  | .referenceDefault =>
    { locked := s.locked, unlocked := s.unlocked ++ [some (referenceTo none)] }
  | .referenceAllocate =>
    { locked := s.locked
      unlocked := s.unlocked ++ [some (referenceTo (some s.createdObjects))]
      allocated := 1 }
  | .referenceFromLocked i =>
    { locked := s.locked, unlocked := s.unlocked ++ [some (referenceTo (s.lockedObject i))] }
  | .referenceFromMovedLocked i =>
    { locked := s.locked.set i (some none)
      unlocked := s.unlocked ++ [some (referenceTo (s.lockedObject i))]
      unlock := s.lockedObject i }
  | .referenceCopy i => { locked := s.locked, unlocked := s.unlocked ++ [some (s.reference i)] }
  | .referenceMove i =>
    { locked := s.locked
      unlocked := s.unlocked.set i (some (referenceTo none)) ++ [some (s.reference i)] }
  | .referenceCopyAssign d i =>
    { locked := s.locked, unlocked := s.unlocked.set d (some (s.reference i)) }
  | .referenceMoveAssign d i =>
    { locked := s.locked
      unlocked := (s.unlocked.set d (some (s.reference i))).set i (some (referenceTo none)) }
  | .referenceDestroy i => { locked := s.locked, unlocked := s.unlocked.set i none }
  | .lock i =>
    { locked := s.locked ++ [some (s.reference i).memoryObject]
      unlocked := s.unlocked
      lock := (s.reference i).memoryObject }

namespace State

variable (build : Build) (s : State)

/-- `MemoryObject::lock`, unless the reference is null. -/
def lockObject : Option ObjectId → State
  | none => s
  | some o => { s with lockCount := Function.update s.lockCount o (s.lockCount o + 1) }

/-- `MemoryObject::unlock`: `assert(m_lock_count-- > 0)`. -/
def unlockObject : Option ObjectId → State
  | none => s
  | some o =>
    match build with
    | .assertions =>
      { s with
        lockCount := Function.update s.lockCount o (s.lockCount o - 1)
        asserted := s.asserted || s.lockCount o == 0
        unlockCalls := o :: s.unlockCalls }
    | .ndebug => { s with unlockCalls := o :: s.unlockCalls }

/-- `MemoryObject::pointer`: `assert(m_lock_count.load() > 0)`. -/
def readPointer : Option ObjectId → State
  | none => s
  | some o =>
    { s with asserted := s.asserted || (build == .assertions && s.lockCount o == 0) }

/-- The objects that nothing refers to any more. -/
def released : List ObjectId :=
  (List.range s.createdObjects).filter fun o =>
    o ∉ s.destroyed.map Prod.fst ∧ ¬ s.Held o

/-- `~MemoryObject`: `assert(m_lock_count.load() == 0)`. -/
def release : State :=
  { s with
    destroyed := s.released.map (fun o => (o, s.lockCount o)) ++ s.destroyed
    asserted := s.asserted ||
      (build == .assertions && s.released.any fun o => s.lockCount o != 0) }

def replace (c : Change) : State :=
  let s := ((s.unlockObject build c.unlock).lockObject c.lock).readPointer build c.pointer
  { s with
    locked := c.locked
    unlocked := c.unlocked
    createdObjects := s.createdObjects + c.allocated }

def apply (c : Change) : State := (s.replace build c).release build

end State

inductive Step (build : Build) : State → State → Prop
  | op (s : State) (op : Op) (hallowed : Allowed s op) : Step build s (s.apply build (change s op))

def Run (build : Build) : State → Prop := Reachable (fun s => s = State.initial) (Step build)

/-- Every count is that of the live locked references, every object was destroyed with
the count zero, and no assertion about a count has failed. -/
structure Balanced (s : State) : Prop where
  counts : ∀ o < s.createdObjects, o ∉ s.destroyed.map Prod.fst → s.lockCount o = s.liveLocks o
  destroyed : ∀ d ∈ s.destroyed, d.2 = 0
  safe : s.asserted = false

section Changes

variable {s : State}

theorem lockedObject_of_getElem? {i : ℕ} {o : Option ObjectId} (h : s.locked[i]? = some (some o)) :
    s.lockedObject i = o := by
  rw [State.lockedObject, h]
  rfl

theorem mem_locked_of_lockedObject {i : ℕ} {o : ObjectId} (h : s.lockedObject i = some o) :
    some (some o) ∈ s.locked := by
  obtain ⟨slot, hslot, hbind⟩ := Option.bind_eq_some_iff.mp h
  obtain ⟨x, rfl, rfl⟩ := Option.bind_eq_some_iff.mp hbind
  exact List.mem_of_getElem? hslot

theorem held_of_reference {i : ℕ} {o : ObjectId} (h : (s.reference i).memoryObject = some o) :
    s.Held o := by
  unfold State.reference at h
  cases hslot : (s.unlocked[i]?).bind id with
  | none =>
    rw [hslot] at h
    cases h
  | some r =>
    rw [hslot] at h
    obtain ⟨slot, hget, rfl⟩ := Option.bind_eq_some_iff.mp hslot
    exact Or.inr ⟨r, List.mem_of_getElem? hget, h⟩

/-- How often a call on `x` concerns the object `o`. -/
def calls (x : Option ObjectId) (o : ObjectId) : ℕ := if x = some o then 1 else 0

@[simp] theorem calls_none (o : ObjectId) : calls none o = 0 := rfl

@[simp] theorem calls_some (o o' : ObjectId) : calls (some o) o' = if o = o' then 1 else 0 := by
  simp [calls]

/-- What every member function respects: the live locked references change by the calls
of `unlock` and `lock`, and nothing refers to an object that nothing referred to. -/
structure Sound (s : State) (c : Change) : Prop where
  balance : ∀ o, c.locked.count (some (some o)) + calls c.unlock o = s.liveLocks o + calls c.lock o
  unlock : ∀ o, c.unlock = some o → some (some o) ∈ s.locked
  pointer : ∀ o, c.pointer = some o → some (some o) ∈ s.locked ∧ c.unlock = none ∧ c.lock = none
  lockedHeld : ∀ o, some (some o) ∈ c.locked → s.Held o
  referenceHeld : ∀ r o, some r ∈ c.unlocked → r.memoryObject = some o →
    s.Held o ∨ o = s.createdObjects ∧ c.allocated = 1

/-- A member function that leaves the locked references alone. -/
theorem sound_of_references {c : Change} (hlocked : c.locked = s.locked) (hunlock : c.unlock = none)
    (hlock : c.lock = none) (hpointer : ∀ o, c.pointer = some o → some (some o) ∈ s.locked)
    (hreferences : ∀ r o, some r ∈ c.unlocked → r.memoryObject = some o →
      s.Held o ∨ o = s.createdObjects ∧ c.allocated = 1) : Sound s c := by
  refine ⟨fun o => ?_, fun o ho => ?_, fun o ho => ⟨hpointer o ho, hunlock, hlock⟩, fun o ho => ?_,
    hreferences⟩
  · rw [hlocked, hunlock, hlock]
    rfl
  · rw [hunlock] at ho
    cases ho
  · rw [hlocked] at ho
    exact Or.inl ho

theorem mem_set_or {α : Type} {l : List α} {i : ℕ} {a b : α} (h : b ∈ l.set i a) : b ∈ l ∨ b = a := by
  rcases List.mem_or_eq_of_mem_set h with h | h
  · exact Or.inl h
  · exact Or.inr h

theorem held_of_mem_concat {o : ObjectId} {slot : Option (Option ObjectId)}
    (hslot : slot = some (some o) → s.Held o) (h : some (some o) ∈ s.locked ++ [slot]) : s.Held o := by
  rcases List.mem_append.mp h with h | h
  · exact Or.inl h
  · exact hslot (List.mem_singleton.mp h).symm

theorem count_concat (l : List (Option (Option ObjectId))) (x : Option ObjectId) (o : ObjectId) :
    (l ++ [some x]).count (some (some o)) = l.count (some (some o)) + calls x o := by
  rw [List.count_append, List.count_singleton, calls]
  by_cases hx : x = some o <;> simp [hx]

theorem count_set {l : List (Option (Option ObjectId))} {i : ℕ} {x : Option ObjectId}
    (h : l[i]? = some (some x)) (slot : Option (Option ObjectId)) (o : ObjectId) :
    (l.set i slot).count (some (some o)) + calls x o =
      l.count (some (some o)) + slot.elim 0 fun y => calls y o := by
  have hset := Counting.count_set_add h slot (some (some o))
  cases slot with
  | none => simpa [calls] using hset
  | some y => simpa [calls] using hset

theorem change_sound {op : Op} (h : Allowed s op) : Sound s (change s op) := by
  have hlocked : ∀ {i : ℕ}, s.IsLocked i → s.locked[i]? = some (some (s.lockedObject i)) := by
    rintro i ⟨o, ho⟩
    rw [lockedObject_of_getElem? ho, ho]
  have hold : ∀ {r : MemoryReference} {o : ObjectId}, some r ∈ s.unlocked → r.memoryObject = some o →
      s.Held o := fun hr ho => Or.inr ⟨_, hr, ho⟩
  have hobject : ∀ {i : ℕ} {o : ObjectId}, s.lockedObject i = some o → s.Held o :=
    fun ho => Or.inl (mem_locked_of_lockedObject ho)
  cases op with
  | lockedDefault =>
    refine ⟨fun o => ?_, nofun, nofun, ?_, fun r o hr ho => Or.inl (hold hr ho)⟩
    · simp only [change, count_concat, State.liveLocks, calls_none, Nat.add_zero]
    · intro o ho
      have hslot : (some none : Option (Option ObjectId)) = some (some o) → s.Held o := nofun
      exact held_of_mem_concat hslot ho
  | lockedCopy i =>
    refine ⟨fun o => ?_, nofun, nofun, ?_, fun r o hr ho => Or.inl (hold hr ho)⟩
    · simp only [change, count_concat, State.liveLocks, calls_none, Nat.add_zero]
    · intro o ho
      exact held_of_mem_concat (fun heq => hobject (Option.some.inj heq)) ho
  | lockedMove i =>
    refine ⟨fun o => ?_, nofun, nofun, ?_, fun r o hr ho => Or.inl (hold hr ho)⟩
    · have hset := count_set (hlocked h) (some none) o
      simp only [change, count_concat, State.liveLocks]
      simp only [Option.elim_some, calls_none] at hset ⊢
      omega
    · intro o ho
      rcases List.mem_append.mp ho with ho | ho
      · rcases mem_set_or ho with ho | ho
        · exact Or.inl ho
        · cases ho
      · exact hobject (Option.some.inj (List.mem_singleton.mp ho)).symm
  | lockedDestroy i =>
    refine ⟨fun o => ?_, fun o ho => mem_locked_of_lockedObject ho, nofun, ?_,
      fun r o hr ho => Or.inl (hold hr ho)⟩
    · have hset := count_set (hlocked h) none o
      simp only [change, State.liveLocks]
      simp only [Option.elim_none, calls_none] at hset ⊢
      omega
    · intro o ho
      rcases mem_set_or ho with ho | ho
      · exact Or.inl ho
      · cases ho
  | lockedCopyAssign d i =>
    obtain ⟨hd, -, -⟩ := h
    refine ⟨fun o => ?_, fun o ho => mem_locked_of_lockedObject ho, nofun, ?_,
      fun r o hr ho => Or.inl (hold hr ho)⟩
    · have hset := count_set (hlocked hd) (some (s.lockedObject i)) o
      exact hset
    · intro o ho
      rcases mem_set_or ho with ho | ho
      · exact Or.inl ho
      · exact hobject (Option.some.inj ho).symm
  | lockedMoveAssign d i =>
    obtain ⟨hd, hi, hne⟩ := h
    refine ⟨fun o => ?_, fun o ho => mem_locked_of_lockedObject ho, nofun, ?_,
      fun r o hr ho => Or.inl (hold hr ho)⟩
    · have hset := count_set (hlocked hd) (some (s.lockedObject i)) o
      have hsource : (s.locked.set d (some (s.lockedObject i)))[i]? = some (some (s.lockedObject i)) := by
        rw [List.getElem?_set_ne hne, hlocked hi]
      have hset' := count_set hsource (some none) o
      simp only [change, State.liveLocks]
      simp only [Option.elim_some, calls_none] at hset hset' ⊢
      omega
    · intro o ho
      rcases mem_set_or ho with ho | ho
      · rcases mem_set_or ho with ho | ho
        · exact Or.inl ho
        · exact hobject (Option.some.inj ho).symm
      · cases ho
  | pointer i =>
    exact sound_of_references rfl rfl rfl (fun o ho => mem_locked_of_lockedObject ho)
      fun r o hr ho => Or.inl (hold hr ho)
  | referenceFromMovedLocked i =>
    refine ⟨fun o => ?_, fun o ho => mem_locked_of_lockedObject ho, nofun, ?_, ?_⟩
    · have hset := count_set (hlocked h) (some none) o
      simp only [change, State.liveLocks]
      simp only [Option.elim_some, calls_none] at hset ⊢
      omega
    · intro o ho
      rcases mem_set_or ho with ho | ho
      · exact Or.inl ho
      · cases ho
    · intro r o hr ho
      rcases List.mem_append.mp hr with hr | hr
      · exact Or.inl (hold hr ho)
      · cases List.mem_singleton.mp hr
        exact Or.inl (hobject ho)
  | lock i =>
    refine ⟨fun o => ?_, nofun, nofun, ?_, fun r o hr ho => Or.inl (hold hr ho)⟩
    · simp only [change, count_concat, State.liveLocks, calls_none, Nat.add_zero]
    · intro o ho
      exact held_of_mem_concat (fun heq => held_of_reference (Option.some.inj heq)) ho
  | referenceDefault =>
    refine sound_of_references rfl rfl rfl nofun fun r o hr ho => ?_
    rcases List.mem_append.mp hr with hr | hr
    · exact Or.inl (hold hr ho)
    · cases List.mem_singleton.mp hr
      cases ho
  | referenceAllocate =>
    refine sound_of_references rfl rfl rfl nofun fun r o hr ho => ?_
    rcases List.mem_append.mp hr with hr | hr
    · exact Or.inl (hold hr ho)
    · cases List.mem_singleton.mp hr
      exact Or.inr ⟨(Option.some.inj ho).symm, rfl⟩
  | referenceFromLocked i =>
    refine sound_of_references rfl rfl rfl nofun fun r o hr ho => ?_
    rcases List.mem_append.mp hr with hr | hr
    · exact Or.inl (hold hr ho)
    · cases List.mem_singleton.mp hr
      exact Or.inl (hobject ho)
  | referenceCopy i =>
    refine sound_of_references rfl rfl rfl nofun fun r o hr ho => ?_
    rcases List.mem_append.mp hr with hr | hr
    · exact Or.inl (hold hr ho)
    · cases List.mem_singleton.mp hr
      exact Or.inl (held_of_reference ho)
  | referenceMove i =>
    refine sound_of_references rfl rfl rfl nofun fun r o hr ho => ?_
    rcases List.mem_append.mp hr with hr | hr
    · rcases mem_set_or hr with hr | hr
      · exact Or.inl (hold hr ho)
      · cases hr
        cases ho
    · cases List.mem_singleton.mp hr
      exact Or.inl (held_of_reference ho)
  | referenceCopyAssign d i =>
    refine sound_of_references rfl rfl rfl nofun fun r o hr ho => ?_
    rcases mem_set_or hr with hr | hr
    · exact Or.inl (hold hr ho)
    · cases hr
      exact Or.inl (held_of_reference ho)
  | referenceMoveAssign d i =>
    refine sound_of_references rfl rfl rfl nofun fun r o hr ho => ?_
    rcases mem_set_or hr with hr | hr
    · rcases mem_set_or hr with hr | hr
      · exact Or.inl (hold hr ho)
      · cases hr
        exact Or.inl (held_of_reference ho)
    · cases hr
      cases ho
  | referenceDestroy i =>
    refine sound_of_references rfl rfl rfl nofun fun r o hr ho => ?_
    rcases mem_set_or hr with hr | hr
    · exact Or.inl (hold hr ho)
    · cases hr

end Changes

section Invariant

variable {build : Build} {s : State} {c : Change}

/-- The decrements that the build leaves out. -/
def skipped (build : Build) (s : State) (o : ObjectId) : ℕ :=
  match build with
  | .assertions => 0
  | .ndebug => s.unlockCalls.count o

/-- A count is that of the live locked references and of the decrements left out. -/
structure CountInv (build : Build) (s : State) : Prop where
  counts : ∀ o, s.lockCount o = s.liveLocks o + skipped build s o
  held : ∀ o, s.Held o → o < s.createdObjects ∧ o ∉ s.destroyed.map Prod.fst
  destroyed : ∀ d ∈ s.destroyed, d.1 < s.createdObjects ∧ d.2 = skipped build s d.1
  unlocked : ∀ o ∈ s.unlockCalls, o < s.createdObjects
  safe : s.asserted = false

theorem unlockCalls_replace (build : Build) (s : State) (c : Change) :
    (s.replace build c).unlockCalls = c.unlock.toList ++ s.unlockCalls := by
  obtain ⟨_, _, unlock, lock, _, pointer⟩ := c
  cases unlock <;> cases lock <;> cases pointer <;> cases build <;> rfl

theorem destroyed_replace (build : Build) (s : State) (c : Change) :
    (s.replace build c).destroyed = s.destroyed := by
  obtain ⟨_, _, unlock, lock, _, pointer⟩ := c
  cases unlock <;> cases lock <;> cases pointer <;> cases build <;> rfl

theorem createdObjects_replace (build : Build) (s : State) (c : Change) :
    (s.replace build c).createdObjects = s.createdObjects + c.allocated := by
  obtain ⟨_, _, unlock, lock, _, pointer⟩ := c
  cases unlock <;> cases lock <;> cases pointer <;> cases build <;> rfl

theorem update_apply_eq (f : ObjectId → ℕ) (o x : ObjectId) (v : ℕ) :
    Function.update f o v x = if o = x then v else f x := by
  by_cases h : o = x
  · subst h
    simp
  · have hne : x ≠ o := fun heq => h heq.symm
    simp [h, hne]

theorem lockCount_replace (hpos : ∀ o, c.unlock = some o → 0 < s.lockCount o) (o : ObjectId) :
    (s.replace build c).lockCount o + (match build with
      | .assertions => calls c.unlock o
      | .ndebug => 0) = s.lockCount o + calls c.lock o := by
  have hunlock : (s.unlockObject build c.unlock).lockCount o + (match build with
      | .assertions => calls c.unlock o
      | .ndebug => 0) = s.lockCount o := by
    cases hu : c.unlock with
    | none => cases build <;> rfl
    | some x =>
      have hx := hpos x hu
      cases build with
      | ndebug => rfl
      | assertions =>
        simp only [State.unlockObject, update_apply_eq, calls_some]
        split
        · next heq =>
          subst heq
          omega
        · rfl
  have hlock : ∀ (s : State) (lock : Option ObjectId),
      (s.lockObject lock).lockCount o = s.lockCount o + calls lock o := by
    intro s lock
    cases lock with
    | none => rfl
    | some x =>
      simp only [State.lockObject, update_apply_eq, calls_some]
      split
      · next heq => rw [heq]
      · rfl
  have hread : ∀ (s : State) (pointer : Option ObjectId),
      (s.readPointer build pointer).lockCount o = s.lockCount o := by
    intro s pointer
    cases pointer <;> rfl
  simp only [State.replace, hread, hlock]
  omega

theorem asserted_replace (hsafe : s.asserted = false) (hpos : ∀ o, c.unlock = some o → 0 < s.lockCount o)
    (hpointer : ∀ o, c.pointer = some o → 0 < s.lockCount o ∧ c.unlock = none ∧ c.lock = none) :
    (s.replace build c).asserted = false := by
  have hunlock : (s.unlockObject build c.unlock).asserted = false := by
    cases hu : c.unlock with
    | none => exact hsafe
    | some x =>
      have hx := hpos x hu
      cases build with
      | ndebug => exact hsafe
      | assertions =>
        have hne : s.lockCount x ≠ 0 := Nat.ne_of_gt hx
        simp [State.unlockObject, hsafe, hne]
  have hlock : ∀ (s : State) (lock : Option ObjectId),
      (s.lockObject lock).asserted = s.asserted := by
    intro s lock
    cases lock <;> rfl
  have hread : (((s.unlockObject build c.unlock).lockObject c.lock).readPointer build c.pointer).asserted =
      false := by
    cases hp : c.pointer with
    | none => exact (hlock _ _).trans hunlock
    | some x =>
      obtain ⟨hx, hnoUnlock, hnoLock⟩ := hpointer x hp
      have hne : s.lockCount x ≠ 0 := Nat.ne_of_gt hx
      rw [hnoUnlock, hnoLock]
      simp [State.readPointer, State.lockObject, State.unlockObject, hsafe, hne]
  exact hread

theorem liveLocks_pos {o : ObjectId} (h : some (some o) ∈ s.locked) : 0 < s.liveLocks o :=
  List.count_pos_iff.mpr h

/-- Before the objects without references are destroyed. -/
theorem CountInv.replace (h : CountInv build s) (hc : Sound s c) :
    CountInv build (s.replace build c) := by
  have hlive : ∀ o, some (some o) ∈ s.locked → 0 < s.lockCount o := by
    intro o ho
    have hpos := liveLocks_pos ho
    have hcount := h.counts o
    omega
  have hunlocked : ∀ o, c.unlock = some o → 0 < s.lockCount o := fun o ho => hlive o (hc.unlock o ho)
  have hskipped : ∀ o, skipped build (s.replace build c) o = skipped build s o + (match build with
      | .assertions => 0
      | .ndebug => calls c.unlock o) := by
    intro o
    cases build with
    | assertions => rfl
    | ndebug =>
      simp only [skipped, unlockCalls_replace, List.count_append, calls]
      cases c.unlock with
      | none => simp
      | some x =>
        simp only [Option.toList_some, List.count_singleton, beq_iff_eq, Option.some.injEq]
        exact Nat.add_comm _ _
  refine ⟨?_, ?_, ?_, ?_, ?_⟩
  · intro o
    have hcount := @lockCount_replace build s c hunlocked o
    have hbalance := hc.balance o
    have hold := h.counts o
    have hskip := hskipped o
    have hsame : (s.replace build c).liveLocks o = c.locked.count (some (some o)) := rfl
    cases build with
    | assertions =>
      simp only at hcount hskip
      omega
    | ndebug =>
      simp only at hcount hskip
      omega
  · intro o ho
    rw [createdObjects_replace, destroyed_replace]
    have hcases : s.Held o ∨ o = s.createdObjects ∧ c.allocated = 1 := by
      rcases ho with ho | ⟨r, hr, hro⟩
      · exact Or.inl (hc.lockedHeld o ho)
      · exact hc.referenceHeld r o hr hro
    rcases hcases with hheld | ⟨rfl, hallocated⟩
    · exact ⟨Nat.lt_of_lt_of_le (h.held o hheld).1 (Nat.le_add_right _ _), (h.held o hheld).2⟩
    · refine ⟨by rw [hallocated]; exact Nat.lt_succ_self _, fun hmem => ?_⟩
      obtain ⟨d, hd, heq⟩ := List.mem_map.mp hmem
      have hlt := (h.destroyed d hd).1
      rw [heq] at hlt
      exact Nat.lt_irrefl _ hlt
  · intro d hd
    rw [destroyed_replace] at hd
    obtain ⟨hlt, hcount⟩ := h.destroyed d hd
    refine ⟨by rw [createdObjects_replace]; exact Nat.lt_of_lt_of_le hlt (Nat.le_add_right _ _), ?_⟩
    -- nothing unlocks an object that has been destroyed
    have hnot : c.unlock ≠ some d.1 := fun heq =>
      (h.held d.1 (Or.inl (hc.unlock d.1 heq))).2 (List.mem_map_of_mem hd)
    have hzero : calls c.unlock d.1 = 0 := if_neg hnot
    rw [hcount, hskipped]
    cases build with
    | assertions => rfl
    | ndebug => simp [hzero]
  · intro o ho
    rw [unlockCalls_replace] at ho
    rw [createdObjects_replace]
    rcases List.mem_append.mp ho with ho | ho
    · have hunlock : c.unlock = some o := by simpa using ho
      exact Nat.lt_of_lt_of_le (h.held o (Or.inl (hc.unlock o hunlock))).1 (Nat.le_add_right _ _)
    · exact Nat.lt_of_lt_of_le (h.unlocked o ho) (Nat.le_add_right _ _)
  · refine @asserted_replace build s c h.safe hunlocked fun o ho => ?_
    obtain ⟨hmem, hrest⟩ := hc.pointer o ho
    exact ⟨hlive o hmem, hrest⟩

theorem CountInv.release (h : CountInv build s) : CountInv build (s.release build) := by
  have hreleased : ∀ o ∈ s.released, o < s.createdObjects ∧ s.lockCount o = skipped build s o ∧
      ¬ s.Held o := by
    intro o ho
    obtain ⟨hlt, hrest⟩ := List.mem_filter.mp ho
    simp only [decide_eq_true_eq] at hrest
    have hzero : s.liveLocks o = 0 := List.count_eq_zero.mpr fun hmem => hrest.2 (Or.inl hmem)
    have hcount := h.counts o
    exact ⟨List.mem_range.mp hlt, by omega, hrest.2⟩
  have hskipped : ∀ o, skipped build (s.release build) o = skipped build s o := by
    intro o
    cases build <;> rfl
  refine ⟨?_, ?_, ?_, h.unlocked, ?_⟩
  · intro o
    rw [hskipped]
    exact h.counts o
  · intro o ho
    have hheld : s.Held o := ho
    refine ⟨(h.held o hheld).1, fun hmem => ?_⟩
    obtain ⟨d, hd, rfl⟩ := List.mem_map.mp hmem
    rcases List.mem_append.mp hd with hd | hd
    · obtain ⟨o, ho', rfl⟩ := List.mem_map.mp hd
      exact (hreleased o ho').2.2 hheld
    · exact (h.held d.1 hheld).2 (List.mem_map_of_mem hd)
  · intro d hd
    rw [hskipped]
    rcases List.mem_append.mp hd with hd | hd
    · obtain ⟨o, ho, rfl⟩ := List.mem_map.mp hd
      exact ⟨(hreleased o ho).1, (hreleased o ho).2.1⟩
    · exact h.destroyed d hd
  · cases build with
    | ndebug => simp [State.release, h.safe]
    | assertions =>
      have hzero : ∀ o ∈ s.released, s.lockCount o = 0 := fun o ho => (hreleased o ho).2.1
      have hany : s.released.any (fun o => s.lockCount o != 0) = false := by
        rw [List.any_eq_false]
        intro o ho
        simp [hzero o ho]
      simp [State.release, h.safe, hany]

theorem run_countInv (hrun : Run build s) : CountInv build s := by
  refine Inductive.reachable ⟨?_, ?_⟩ hrun
  · rintro _ rfl
    refine ⟨fun o => ?_, fun o ho => ?_, nofun, nofun, rfl⟩
    · cases build <;> rfl
    · rcases ho with ho | ⟨r, hr, -⟩
      · cases ho
      · cases hr
  · intro s s' h hstep
    cases hstep with
    | op op hallowed => exact (h.replace (change_sound hallowed)).release

/-- With assertions the counts are always right. Without them they are right as long as
`unlock` has not been called, and never again from its first call on. In both builds a
locked reference finds a positive count and no assertion about a count fails. -/
theorem balanced_iff (hrun : Run build s) :
    (Balanced s ↔ build = .assertions ∨ s.unlockCalls = []) ∧
      s.asserted = false ∧ ∀ i o, s.lockedObject i = some o → 0 < s.lockCount o := by
  have h := run_countInv hrun
  refine ⟨⟨fun hbalanced => ?_, fun hcases => ?_⟩, h.safe, fun i o ho => ?_⟩
  · by_contra hno
    push Not at hno
    obtain ⟨hbuild, hcalls⟩ := hno
    have hndebug : build = .ndebug := by
      cases build with
      | assertions => exact absurd rfl hbuild
      | ndebug => rfl
    subst hndebug
    obtain ⟨o, ho⟩ := List.exists_mem_of_ne_nil _ hcalls
    have hpos : 0 < s.unlockCalls.count o := List.count_pos_iff.mpr ho
    by_cases hdestroyed : o ∈ s.destroyed.map Prod.fst
    · obtain ⟨d, hd, rfl⟩ := List.mem_map.mp hdestroyed
      have hcount : d.2 = s.unlockCalls.count d.1 := (h.destroyed d hd).2
      have hzero := hbalanced.destroyed d hd
      omega
    · have hcount : s.lockCount o = s.liveLocks o + s.unlockCalls.count o := h.counts o
      have heq := hbalanced.counts o (h.unlocked o ho) hdestroyed
      omega
  · have hzero : ∀ o, skipped build s o = 0 := by
      intro o
      rcases hcases with rfl | hcalls
      · rfl
      · cases build with
        | assertions => rfl
        | ndebug => simp [skipped, hcalls]
    refine ⟨fun o _ _ => ?_, fun d hd => ?_, h.safe⟩
    · rw [h.counts o, hzero, Nat.add_zero]
    · rw [(h.destroyed d hd).2, hzero]
  · have hpos := liveLocks_pos (mem_locked_of_lockedObject ho)
    have hcount := h.counts o
    omega

/-- One object is locked and unlocked, in both builds. -/
theorem balanced_iff_unlocked :
    (∃ s, Run .assertions s ∧ s.unlockCalls = [0] ∧ Balanced s) ∧
      ∃ s, Run .ndebug s ∧ s.unlockCalls = [0] ∧ ¬ Balanced s := by
  have hrun : ∀ build, Run build _ := fun build =>
    .next (.next (.next (.start rfl) (.op State.initial .referenceAllocate trivial))
      (.op _ (.lock 0) ⟨_, rfl⟩)) (.op _ (.lockedDestroy 0) ⟨some 0, by cases build <;> rfl⟩)
  refine ⟨⟨_, hrun .assertions, rfl, (balanced_iff (hrun .assertions)).1.mpr (Or.inl rfl)⟩,
    ⟨_, hrun .ndebug, rfl, fun hbalanced => ?_⟩⟩
  rcases (balanced_iff (hrun .ndebug)).1.mp hbalanced with hbuild | hcalls
  · cases hbuild
  · cases hcalls

/-- Without assertions the count of an object that is no longer locked stays at one. -/
theorem not_always_balanced : ¬ ∀ build s, Run build s → Balanced s := by
  intro h
  have hrun : Run .ndebug _ :=
    .next (.next (.next (.start rfl) (.op State.initial .referenceAllocate trivial))
      (.op _ (.lock 0) ⟨_, rfl⟩)) (.op _ (.lockedDestroy 0) ⟨some 0, rfl⟩)
  have hcount := (h .ndebug _ hrun).counts 0 (by decide) (by decide)
  exact absurd hcount (by decide)

end Invariant

end M3bp.LockCount
