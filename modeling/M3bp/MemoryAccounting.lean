import M3bp.Counting
import M3bp.LocalityManager
import M3bp.Transition

/-!
`MemoryManager` and the objects it hands out. `allocate` creates an object, enters it
into the map of managed objects, adds its size to the total and writes a log event. Each
of these may throw, and then the object is destroyed on the way out, where its
destructor releases it as if all of them had been done. The release writes a log event too,
inside a function that must not throw.
-/
namespace M3bp.MemoryAccounting

open Transition
open WorkerPlacement (AffinityMode)

structure MemoryObject where
  selfIdentifier : UInt64
  bufferSize : UInt64
  locality : UInt64
  pointer : UInt64
  deriving DecidableEq, Repr

/-- `INVALID_IDENTIFIER`, the largest value of the type. -/
def invalidIdentifier : UInt64 := -1

/-- The members of `MemoryManager`, the map as the list of its keys. The last field counts
the calls of `notify_release` that find no entry, where its assertion fails. -/
structure MemoryManager where
  affinityMode : AffinityMode
  managedObjects : List UInt64
  nextIdentifier : UInt64
  totalMemoryUsage : UInt64
  missingEntries : ℕ
  deriving DecidableEq, Repr

/-- The step of `allocate` that throws. `creation` is `make_shared` with the constructor
and its `malloc`, `insertion` the lock and `emplace`, and `log` the event logger. Behind the
constructor the object is released on the way out, where the event logger may throw again. -/
inductive Failure
  | creation
  | insertion (releaseThrows : Bool)
  | log (releaseThrows : Bool)
  deriving DecidableEq, Repr

namespace Failure

def atInsertion : Failure → Bool
  | insertion _ => true
  | _ => false

def releaseThrows : Failure → Bool
  | creation => false
  | insertion releaseThrows => releaseThrows
  | log releaseThrows => releaseThrows

end Failure

namespace MemoryManager

def initial (affinity : AffinityMode) : MemoryManager :=
  { affinityMode := affinity
    managedObjects := []
    nextIdentifier := 0
    totalMemoryUsage := 0
    missingEntries := 0 }

variable (m : MemoryManager)

/-- The log event comes first. Where it throws there is no manager any more, as the function
is `noexcept` and the process ends. Erasing at the end of the map, which assertions rule out,
is taken to erase nothing. -/
def notifyRelease (identifier size : UInt64) (throws : Bool) : Option MemoryManager :=
  if throws then none
  else
    some
      { m with
        managedObjects := m.managedObjects.erase identifier
        totalMemoryUsage := m.totalMemoryUsage - size
        missingEntries := m.missingEntries + if identifier ∈ m.managedObjects then 0 else 1 }

/-- `emplace` keeps an entry that is there. -/
def emplace (identifier : UInt64) : MemoryManager :=
  if identifier ∈ m.managedObjects then m
  else { m with managedObjects := identifier :: m.managedObjects }

def addUsage (size : UInt64) : MemoryManager :=
  { m with totalMemoryUsage := m.totalMemoryUsage + size }

end MemoryManager

/-- The destructor of `MemoryObject`. -/
def MemoryObject.destroy (o : MemoryObject) (m : MemoryManager) (throws : Bool) :
    Option MemoryManager :=
  if o.selfIdentifier = invalidIdentifier then some m
  else m.notifyRelease o.selfIdentifier o.bufferSize throws

namespace MemoryManager

variable (m : MemoryManager)

/-- The body that both overloads of `allocate` share, with the address from `malloc`. -/
def create (size locality pointer : UInt64) (failure : Option Failure) :
    Option (MemoryManager × Option MemoryObject) :=
  let newId := m.nextIdentifier
  let m := { m with nextIdentifier := m.nextIdentifier + 1 }
  let mobj : MemoryObject :=
    { selfIdentifier := newId, bufferSize := size, locality := locality, pointer := pointer }
  match failure with
  | some .creation => some (m, none)
  | some (.insertion releaseThrows) => (mobj.destroy m releaseThrows).map fun m => (m, none)
  | some (.log releaseThrows) =>
    (mobj.destroy ((m.emplace newId).addUsage size) releaseThrows).map fun m => (m, none)
  | none => some ((m.emplace newId).addUsage size, some mobj)

def allocate (size pointer : UInt64) (failure : Option Failure) :
    Option (MemoryManager × Option MemoryObject) :=
  m.create size 0 pointer failure

def allocateOnNode (size numaNode pointer : UInt64) (failure : Option Failure) :
    Option (MemoryManager × Option MemoryObject) :=
  if m.affinityMode = .none then m.allocate size pointer failure
  else m.create size numaNode pointer failure

end MemoryManager

/-- The manager with the objects that some reference keeps alive, the identifiers given
out so far, whether `std::terminate` has ended the process, and how many insertions and how
many log events of releases have thrown. -/
structure State where
  manager : MemoryManager
  live : List MemoryObject
  issued : List UInt64
  terminated : Bool
  failedInsertions : ℕ
  failedReleases : ℕ
  deriving DecidableEq, Repr

inductive Op
  | allocate (size pointer : UInt64) (failure : Option Failure)
  | allocateOnNode (size numaNode pointer : UInt64) (failure : Option Failure)
  | drop (i : ℕ) (releaseThrows : Bool)
  deriving DecidableEq, Repr

namespace State

def initial (affinity : AffinityMode) : State :=
  { manager := .initial affinity
    live := []
    issued := []
    terminated := false
    failedInsertions := 0
    failedReleases := 0 }

def afterCall (s : State) (result : Option (MemoryManager × Option MemoryObject))
    (failure : Option Failure) : State :=
  { manager := (result.map Prod.fst).getD s.manager
    live := (result.bind Prod.snd).toList ++ s.live
    issued := s.manager.nextIdentifier :: s.issued
    terminated := result.isNone
    failedInsertions := s.failedInsertions + if failure.any Failure.atInsertion then 1 else 0
    failedReleases := s.failedReleases + if failure.any Failure.releaseThrows then 1 else 0 }

/-- The last reference to `o` is gone, and `rest` is left. -/
def afterDrop (s : State) (o : MemoryObject) (rest : List MemoryObject) (throws : Bool) : State :=
  { s with
    manager := (o.destroy s.manager throws).getD s.manager
    live := rest
    terminated := (o.destroy s.manager throws).isNone
    failedReleases := s.failedReleases + if throws then 1 else 0 }

def step (s : State) : Op → State
  | .allocate size pointer failure =>
    s.afterCall (s.manager.allocate size pointer failure) failure
  | .allocateOnNode size numaNode pointer failure =>
    s.afterCall (s.manager.allocateOnNode size numaNode pointer failure) failure
  | .drop i releaseThrows =>
    match s.live[i]? with
    | some o => s.afterDrop o (s.live.eraseIdx i) releaseThrows
    | none => s

end State

/-- Two blocks of the address space without a common byte. -/
def Apart (p n q k : UInt64) : Prop := p.toNat + n.toNat ≤ q.toNat ∨ q.toNat + k.toNat ≤ p.toNat

instance (p n q k : UInt64) : Decidable (Apart p n q k) := inferInstanceAs (Decidable (_ ∨ _))

/-- What `malloc` returns: a block behind the null pointer and apart from the blocks in use. -/
def Fresh (s : State) (pointer size : UInt64) : Prop :=
  0 < pointer.toNat ∧ pointer.toNat + size.toNat ≤ 2 ^ 64 ∧
    ∀ o ∈ s.live, Apart pointer size o.pointer o.bufferSize

instance (s : State) (pointer size : UInt64) : Decidable (Fresh s pointer size) :=
  inferInstanceAs (Decidable (_ ∧ _ ∧ _))

def Allowed (s : State) : Op → Prop
  | .allocate size pointer failure => failure ≠ some .creation → Fresh s pointer size
  | .allocateOnNode size _ pointer failure => failure ≠ some .creation → Fresh s pointer size
  | .drop i _ => i < s.live.length

instance (s : State) : (op : Op) → Decidable (Allowed s op)
  | .allocate _ _ _ => inferInstanceAs (Decidable (_ → _))
  | .allocateOnNode _ _ _ _ => inferInstanceAs (Decidable (_ → _))
  | .drop _ _ => inferInstanceAs (Decidable (_ < _))

def Initial (s : State) : Prop := ∃ affinity, s = State.initial affinity

def Step (s t : State) : Prop := s.terminated = false ∧ ∃ op, Allowed s op ∧ t = s.step op

/-- The process goes on, the identifiers of the live objects are the keys, the total is
their size, no identifier has been given out twice and every release has found its entry. -/
structure Accounted (s : State) : Prop where
  running : s.terminated = false
  keys_nodup : s.manager.managedObjects.Nodup
  keys : s.manager.managedObjects.Perm (s.live.map MemoryObject.selfIdentifier)
  total : s.manager.totalMemoryUsage.toNat = (s.live.map fun o => o.bufferSize.toNat).sum
  issued_nodup : s.issued.Nodup
  released : s.manager.missingEntries = 0

namespace Op

def failure : Op → Option Failure
  | .allocate _ _ failure => failure
  | .allocateOnNode _ _ _ failure => failure
  | .drop _ _ => none

def releaseThrows : Op → Bool
  | .drop _ releaseThrows => releaseThrows
  | op => op.failure.any Failure.releaseThrows

end Op

/-- Both overloads are a call of the shared body with some locality. -/
theorem step_cases {s : State} {op : Op} (hop : Allowed s op) :
    (∃ size locality pointer, (op.failure ≠ some .creation → Fresh s pointer size) ∧
      op.releaseThrows = op.failure.any Failure.releaseThrows ∧
      s.step op = s.afterCall (s.manager.create size locality pointer op.failure) op.failure) ∨
    ∃ o l r, op.failure = none ∧ s.live = l ++ o :: r ∧
      s.step op = s.afterDrop o (l ++ r) op.releaseThrows := by
  cases op with
  | allocate size pointer failure => exact Or.inl ⟨size, 0, pointer, hop, rfl, rfl⟩
  | allocateOnNode size numaNode pointer failure =>
    by_cases haffinity : s.manager.affinityMode = .none
    · refine Or.inl ⟨size, 0, pointer, hop, rfl, ?_⟩
      simp [State.step, MemoryManager.allocateOnNode, haffinity, MemoryManager.allocate,
        Op.failure]
    · refine Or.inl ⟨size, numaNode, pointer, hop, rfl, ?_⟩
      simp [State.step, MemoryManager.allocateOnNode, haffinity, Op.failure]
  | drop i releaseThrows =>
    have hi : i < s.live.length := hop
    refine Or.inr ⟨s.live[i], s.live.take i, s.live.drop (i + 1), rfl, ?_, ?_⟩
    · simp
    · simp [State.step, hi, List.eraseIdx_eq_take_drop_succ, Op.releaseThrows]

theorem MemoryObject.throws_of_destroy {o : MemoryObject} {m : MemoryManager} {throws : Bool}
    (h : o.destroy m throws = none) : throws = true := by
  unfold destroy MemoryManager.notifyRelease at h
  split at h
  case isTrue => exact absurd h nofun
  case isFalse =>
    split at h
    case isTrue hthrows => exact hthrows
    case isFalse => exact absurd h nofun

/-- Only a log event that throws while an object is released ends the process. -/
theorem MemoryManager.create_eq_none {m : MemoryManager} {size locality pointer : UInt64}
    {failure : Option Failure} (h : m.create size locality pointer failure = none) :
    failure.any Failure.releaseThrows = true := by
  match failure with
  | none => exact absurd h nofun
  | some .creation => exact absurd h nofun
  | some (.insertion _) => exact MemoryObject.throws_of_destroy (Option.map_eq_none_iff.mp h)
  | some (.log _) => exact MemoryObject.throws_of_destroy (Option.map_eq_none_iff.mp h)

/-- What the shared body does where the new identifier is not in use. A failed insertion is
released like an object that has been entered. -/
theorem MemoryManager.create_eq {m : MemoryManager} (hnew : m.nextIdentifier ∉ m.managedObjects)
    (hvalid : m.nextIdentifier ≠ invalidIdentifier) (size locality pointer : UInt64)
    (failure : Option Failure) :
    m.create size locality pointer failure =
      match failure with
      | some (.insertion true) => none
      | some (.log true) => none
      | some (.insertion false) =>
        some ({ m with
            nextIdentifier := m.nextIdentifier + 1
            totalMemoryUsage := m.totalMemoryUsage - size
            missingEntries := m.missingEntries + 1 }, none)
      | some _ => some ({ m with nextIdentifier := m.nextIdentifier + 1 }, none)
      | none =>
        some ({ m with
            nextIdentifier := m.nextIdentifier + 1
            managedObjects := m.nextIdentifier :: m.managedObjects
            totalMemoryUsage := m.totalMemoryUsage + size },
          some ⟨m.nextIdentifier, size, locality, pointer⟩) := by
  match failure with
  | none => simp [create, emplace, addUsage, hnew]
  | some .creation => rfl
  | some (.insertion true) => simp [create, MemoryObject.destroy, hvalid, notifyRelease]
  | some (.log true) => simp [create, MemoryObject.destroy, hvalid, notifyRelease]
  | some (.insertion false) =>
    simp [create, MemoryObject.destroy, hvalid, notifyRelease, hnew, List.erase_of_not_mem hnew]
  | some (.log false) =>
    simp [create, emplace, addUsage, hnew, MemoryObject.destroy, hvalid, notifyRelease]

/-- While the process runs, the identifiers count the calls and the blocks in use are
disjoint. -/
structure Inv (s : State) : Prop where
  next : s.manager.nextIdentifier.toNat = s.issued.length
  issued_lt : ∀ id ∈ s.issued, id.toNat < s.issued.length
  issued_nodup : s.issued.Nodup
  managed : ∀ id ∈ s.manager.managedObjects, id ∈ s.issued
  live : ∀ o ∈ s.live, o.selfIdentifier ∈ s.issued
  inside : ∀ o ∈ s.live, 0 < o.pointer.toNat ∧ o.pointer.toNat + o.bufferSize.toNat ≤ 2 ^ 64
  apart : s.live.Pairwise fun a b => Apart a.pointer a.bufferSize b.pointer b.bufferSize
  missing : 0 < s.failedInsertions → 0 < s.manager.missingEntries
  releases : s.failedReleases = 0

theorem inv_initial (affinity : AffinityMode) : Inv (State.initial affinity) where
  next := rfl
  issued_lt := fun _ h => absurd h List.not_mem_nil
  issued_nodup := List.nodup_nil
  managed := fun _ h => absurd h List.not_mem_nil
  live := fun _ h => absurd h List.not_mem_nil
  inside := fun _ h => absurd h List.not_mem_nil
  apart := List.Pairwise.nil
  missing := fun h => absurd h (Nat.lt_irrefl 0)
  releases := rfl

section Call

variable {s : State} (hinv : Inv s) (hcalls : s.issued.length + 1 < 2 ^ 64)

include hinv in
theorem Inv.next_not_issued : s.manager.nextIdentifier ∉ s.issued := by
  intro hmem
  have hlt := hinv.issued_lt _ hmem
  rw [hinv.next] at hlt
  exact Nat.lt_irrefl _ hlt

include hinv in
theorem Inv.next_not_managed : s.manager.nextIdentifier ∉ s.manager.managedObjects :=
  fun hmem => hinv.next_not_issued (hinv.managed _ hmem)

include hinv hcalls in
theorem Inv.next_valid : s.manager.nextIdentifier ≠ invalidIdentifier := by
  intro heq
  have hnext := hinv.next
  rw [heq] at hnext
  have hinvalid : invalidIdentifier.toNat = 2 ^ 64 - 1 := rfl
  omega

include hinv hcalls in
theorem Inv.next_succ : (s.manager.nextIdentifier + 1).toNat = s.issued.length + 1 := by
  have hnext := hinv.next
  have hone : (1 : UInt64).toNat = 1 := rfl
  rw [UInt64.toNat_add, hone, hnext]
  exact Nat.mod_eq_of_lt hcalls

include hinv hcalls in
theorem Inv.call {size locality pointer : UInt64} {failure : Option Failure}
    (hfresh : failure ≠ some .creation → Fresh s pointer size)
    (hthrows : failure.any Failure.releaseThrows = false) :
    Inv (s.afterCall (s.manager.create size locality pointer failure) failure) := by
  have hissued : ∀ id ∈ s.manager.nextIdentifier :: s.issued, id.toNat < s.issued.length + 1 := by
    intro id hid
    rcases List.mem_cons.mp hid with rfl | hid
    · rw [hinv.next]
      exact Nat.lt_succ_self _
    · exact Nat.lt_succ_of_lt (hinv.issued_lt id hid)
  have hnodup : (s.manager.nextIdentifier :: s.issued).Nodup :=
    List.nodup_cons.mpr ⟨hinv.next_not_issued, hinv.issued_nodup⟩
  have hmanaged : ∀ id ∈ s.manager.managedObjects, id ∈ s.manager.nextIdentifier :: s.issued :=
    fun id hid => List.mem_cons_of_mem _ (hinv.managed id hid)
  have hlive : ∀ o ∈ s.live, o.selfIdentifier ∈ s.manager.nextIdentifier :: s.issued :=
    fun o ho => List.mem_cons_of_mem _ (hinv.live o ho)
  rw [MemoryManager.create_eq hinv.next_not_managed (hinv.next_valid hcalls)]
  match failure with
  | none =>
    obtain ⟨hpos, hend, hapart⟩ := hfresh nofun
    exact
      { next := hinv.next_succ hcalls
        issued_lt := hissued
        issued_nodup := hnodup
        managed := fun id hid => by
          rcases List.mem_cons.mp hid with rfl | hid
          · exact List.mem_cons_self
          · exact hmanaged id hid
        live := List.forall_mem_cons.mpr ⟨List.mem_cons_self, hlive⟩
        inside := List.forall_mem_cons.mpr ⟨⟨hpos, hend⟩, hinv.inside⟩
        apart := List.pairwise_cons.mpr ⟨hapart, hinv.apart⟩
        missing := hinv.missing
        releases := hinv.releases }
  | some (.insertion true) => exact absurd hthrows nofun
  | some (.log true) => exact absurd hthrows nofun
  | some (.insertion false) =>
    exact
      { next := hinv.next_succ hcalls, issued_lt := hissued, issued_nodup := hnodup
        managed := hmanaged, live := hlive, inside := hinv.inside, apart := hinv.apart
        missing := fun _ => Nat.succ_pos _, releases := hinv.releases }
  | some .creation =>
    exact
      { next := hinv.next_succ hcalls, issued_lt := hissued, issued_nodup := hnodup
        managed := hmanaged, live := hlive, inside := hinv.inside, apart := hinv.apart
        missing := hinv.missing, releases := hinv.releases }
  | some (.log false) =>
    exact
      { next := hinv.next_succ hcalls, issued_lt := hissued, issued_nodup := hnodup
        managed := hmanaged, live := hlive, inside := hinv.inside, apart := hinv.apart
        missing := hinv.missing, releases := hinv.releases }

/-- Blocks in one address space are together smaller than it is. -/
theorem Inv.sum_sizes_lt (hinv : Inv s) :
    (s.live.map fun o => o.bufferSize.toNat).sum < 2 ^ 64 := by
  have hle := Counting.sum_sizes_le (fun o : MemoryObject => o.pointer.toNat)
    (fun o => o.bufferSize.toNat) 1 (2 ^ 64) hinv.apart hinv.inside
  omega

include hinv hcalls in
/-- A call that does not fail at the insertion keeps the account, if it can release what it
has created. -/
theorem Accounted.call (hacc : Accounted s) {size locality pointer : UInt64}
    {failure : Option Failure} (hfresh : failure ≠ some .creation → Fresh s pointer size)
    (hinsertion : failure.any Failure.atInsertion = false)
    (hthrows : failure.any Failure.releaseThrows = false) :
    Accounted (s.afterCall (s.manager.create size locality pointer failure) failure) := by
  have hafter : Inv (s.afterCall (s.manager.create size locality pointer failure) failure) :=
    hinv.call hcalls hfresh hthrows
  have hsum := hafter.sum_sizes_lt
  rw [MemoryManager.create_eq hinv.next_not_managed (hinv.next_valid hcalls)] at hafter hsum ⊢
  match failure with
  | none =>
    refine ⟨rfl, List.nodup_cons.mpr ⟨hinv.next_not_managed, hacc.keys_nodup⟩, hacc.keys.cons _,
      ?_, hafter.issued_nodup, hacc.released⟩
    show (s.manager.totalMemoryUsage + size).toNat =
      size.toNat + (s.live.map fun o => o.bufferSize.toNat).sum
    have hlt : size.toNat + (s.live.map fun o => o.bufferSize.toNat).sum < 2 ^ 64 := hsum
    rw [UInt64.toNat_add, hacc.total, Nat.add_comm]
    exact Nat.mod_eq_of_lt hlt
  | some (.insertion _) => exact absurd hinsertion nofun
  | some (.log true) => exact absurd hthrows nofun
  | some .creation =>
    exact ⟨rfl, hacc.keys_nodup, hacc.keys, hacc.total, hafter.issued_nodup, hacc.released⟩
  | some (.log false) =>
    exact ⟨rfl, hacc.keys_nodup, hacc.keys, hacc.total, hafter.issued_nodup, hacc.released⟩

end Call

section Drop

variable {s : State} {o : MemoryObject} {l r : List MemoryObject}

/-- The identifier of a live object is one that has been given out. -/
theorem Inv.live_valid (hinv : Inv s) (hcalls : s.issued.length < 2 ^ 64) (ho : o ∈ s.live) :
    o.selfIdentifier ≠ invalidIdentifier := by
  intro heq
  have hlt := hinv.issued_lt _ (hinv.live o ho)
  have hinvalid : invalidIdentifier.toNat = 2 ^ 64 - 1 := rfl
  rw [heq] at hlt
  omega

/-- The destructor of a live object releases it. -/
theorem Inv.afterDrop_eq (hinv : Inv s) (hcalls : s.issued.length < 2 ^ 64) (ho : o ∈ s.live)
    (rest : List MemoryObject) (throws : Bool) :
    s.afterDrop o rest throws =
      if throws then
        { s with live := rest, terminated := true, failedReleases := s.failedReleases + 1 }
      else
        { s with
          manager :=
            { s.manager with
              managedObjects := s.manager.managedObjects.erase o.selfIdentifier
              totalMemoryUsage := s.manager.totalMemoryUsage - o.bufferSize
              missingEntries := s.manager.missingEntries +
                if o.selfIdentifier ∈ s.manager.managedObjects then 0 else 1 }
          live := rest
          terminated := false } := by
  have hvalid := hinv.live_valid hcalls ho
  cases throws <;>
    simp [State.afterDrop, MemoryObject.destroy, hvalid, MemoryManager.notifyRelease]

theorem Inv.drop (hinv : Inv s) (hcalls : s.issued.length < 2 ^ 64) (hlive : s.live = l ++ o :: r) :
    Inv (s.afterDrop o (l ++ r) false) := by
  have ho : o ∈ s.live := hlive ▸ List.mem_append_right l List.mem_cons_self
  have hsub : (l ++ r).Sublist s.live := by
    rw [hlive]
    exact (List.sublist_cons_self o r).append_left l
  rw [hinv.afterDrop_eq hcalls ho]
  exact
    { next := hinv.next
      issued_lt := hinv.issued_lt
      issued_nodup := hinv.issued_nodup
      managed := fun id hid => hinv.managed id (List.mem_of_mem_erase hid)
      live := fun a ha => hinv.live a (hsub.subset ha)
      inside := fun a ha => hinv.inside a (hsub.subset ha)
      apart := hinv.apart.sublist hsub
      missing := fun hfailed => Nat.lt_of_lt_of_le (hinv.missing hfailed) (Nat.le_add_right _ _)
      releases := hinv.releases }

/-- The destructor of a live object undoes exactly what its `allocate` has done. -/
theorem Accounted.drop (hacc : Accounted s) (hinv : Inv s) (hcalls : s.issued.length < 2 ^ 64)
    (hlive : s.live = l ++ o :: r) : Accounted (s.afterDrop o (l ++ r) false) := by
  have ho : o ∈ s.live := hlive ▸ List.mem_append_right l List.mem_cons_self
  have hkeys : s.manager.managedObjects.Perm
      (o.selfIdentifier :: (l ++ r).map MemoryObject.selfIdentifier) := by
    have hmiddle : (l ++ o :: r).Perm (o :: (l ++ r)) := List.perm_middle
    exact hacc.keys.trans (hlive ▸ hmiddle.map MemoryObject.selfIdentifier)
  have hentry : o.selfIdentifier ∈ s.manager.managedObjects :=
    hkeys.symm.subset List.mem_cons_self
  have hsum : s.manager.totalMemoryUsage.toNat =
      o.bufferSize.toNat + ((l ++ r).map fun o => o.bufferSize.toNat).sum := by
    rw [hacc.total, hlive, List.map_append, List.map_cons, List.sum_append, List.sum_cons,
      List.map_append, List.sum_append]
    omega
  rw [hinv.afterDrop_eq hcalls ho]
  refine ⟨rfl, hacc.keys_nodup.erase _, ?_, ?_, hacc.issued_nodup, ?_⟩
  · show (s.manager.managedObjects.erase o.selfIdentifier).Perm _
    have herase := hkeys.erase o.selfIdentifier
    rwa [List.erase_cons_head] at herase
  · show (s.manager.totalMemoryUsage - o.bufferSize).toNat =
      ((l ++ r).map fun o => o.bufferSize.toNat).sum
    have hle : o.bufferSize ≤ s.manager.totalMemoryUsage := by
      rw [UInt64.le_iff_toNat_le, hsum]
      exact Nat.le_add_right _ _
    rw [UInt64.toNat_sub_of_le _ _ hle, hsum]
    exact Nat.add_sub_cancel_left _ _
  · show s.manager.missingEntries + (if _ then 0 else 1) = 0
    rw [if_pos hentry]
    exact hacc.released

end Drop

/-! Steps and runs. What throws is given by the operation alone. -/

section Step

variable {s : State} {op : Op}

theorem step_length_le (hop : Allowed s op) : s.issued.length ≤ (s.step op).issued.length := by
  rcases step_cases hop with ⟨size, locality, pointer, -, -, heq⟩ | ⟨o, l, r, -, -, heq⟩
  · rw [heq]
    exact Nat.le_succ _
  · rw [heq]
    exact Nat.le_refl _

theorem step_failedInsertions (hop : Allowed s op) : (s.step op).failedInsertions =
    s.failedInsertions + if op.failure.any Failure.atInsertion then 1 else 0 := by
  rcases step_cases hop with ⟨size, locality, pointer, -, -, heq⟩ | ⟨o, l, r, hnone, -, heq⟩
  · rw [heq]
    rfl
  · rw [heq, hnone]
    rfl

theorem step_failedReleases (hop : Allowed s op) : (s.step op).failedReleases =
    s.failedReleases + if op.releaseThrows then 1 else 0 := by
  rcases step_cases hop with ⟨size, locality, pointer, -, hthrows, heq⟩ | ⟨o, l, r, -, -, heq⟩
  · rw [heq, hthrows]
    rfl
  · rw [heq]
    rfl

/-- The process only ends where a release throws. -/
theorem step_terminated (hop : Allowed s op) (hended : (s.step op).terminated = true) :
    op.releaseThrows = true := by
  rcases step_cases hop with ⟨size, locality, pointer, -, hthrows, heq⟩ | ⟨o, l, r, -, -, heq⟩
  · rw [heq] at hended
    rw [hthrows]
    exact MemoryManager.create_eq_none (Option.isNone_iff_eq_none.mp hended)
  · rw [heq] at hended
    exact MemoryObject.throws_of_destroy (Option.isNone_iff_eq_none.mp hended)

/-- And it does end there. -/
theorem Inv.terminated_of_throws (hinv : Inv s) (hop : Allowed s op)
    (hcalls : (s.step op).issued.length < 2 ^ 64) (hthrows : op.releaseThrows = true) :
    (s.step op).terminated = true := by
  have hbefore := Nat.lt_of_le_of_lt (step_length_le hop) hcalls
  rcases step_cases hop with ⟨size, locality, pointer, -, hfailure, heq⟩ | ⟨o, l, r, -, hlive, heq⟩
  · rw [heq] at hcalls ⊢
    rw [hfailure] at hthrows
    rw [MemoryManager.create_eq hinv.next_not_managed (hinv.next_valid hcalls)]
    match op.failure, hthrows with
    | some (.insertion true), _ => rfl
    | some (.log true), _ => rfl
  · have ho : o ∈ s.live := hlive ▸ List.mem_append_right l List.mem_cons_self
    rw [heq, hinv.afterDrop_eq hbefore ho, hthrows]
    rfl

theorem Inv.step (hinv : Inv s) (hop : Allowed s op) (hcalls : (s.step op).issued.length < 2 ^ 64)
    (hrunning : (s.step op).terminated = false) : Inv (s.step op) := by
  have hbefore := Nat.lt_of_le_of_lt (step_length_le hop) hcalls
  have hthrows : op.releaseThrows = false := by
    by_contra hthrows
    rw [hinv.terminated_of_throws hop hcalls (Bool.eq_true_of_not_eq_false hthrows)] at hrunning
    exact Bool.noConfusion hrunning
  rcases step_cases hop with
    ⟨size, locality, pointer, hfresh, hfailure, heq⟩ | ⟨o, l, r, -, hlive, heq⟩
  · rw [heq] at hcalls ⊢
    exact hinv.call hcalls hfresh (hfailure.symm.trans hthrows)
  · rw [heq, hthrows]
    exact hinv.drop hbefore hlive

theorem Accounted.step (hacc : Accounted s) (hinv : Inv s) (hop : Allowed s op)
    (hcalls : (s.step op).issued.length < 2 ^ 64)
    (hinsertion : op.failure.any Failure.atInsertion = false) (hthrows : op.releaseThrows = false) :
    Accounted (s.step op) := by
  have hbefore := Nat.lt_of_le_of_lt (step_length_le hop) hcalls
  rcases step_cases hop with
    ⟨size, locality, pointer, hfresh, hfailure, heq⟩ | ⟨o, l, r, -, hlive, heq⟩
  · rw [heq] at hcalls ⊢
    exact hacc.call hinv hcalls hfresh hinsertion (hfailure.symm.trans hthrows)
  · rw [heq, hthrows]
    exact hacc.drop hinv hbefore hlive

/-- A call that fails before or after the insertion changes neither the map nor the total. -/
theorem Inv.failed_call (hinv : Inv s) (hop : Allowed s op)
    (hcalls : (s.step op).issued.length < 2 ^ 64) (hfailure : op.failure ≠ none)
    (hinsertion : op.failure.any Failure.atInsertion = false) (hthrows : op.releaseThrows = false) :
    (s.step op).manager.managedObjects = s.manager.managedObjects ∧
      (s.step op).manager.totalMemoryUsage = s.manager.totalMemoryUsage := by
  rcases step_cases hop with ⟨size, locality, pointer, -, hfails, heq⟩ | ⟨o, l, r, hnone, -, heq⟩
  · rw [heq] at hcalls ⊢
    rw [hfails] at hthrows
    rw [MemoryManager.create_eq hinv.next_not_managed (hinv.next_valid hcalls)]
    match op.failure, hfailure, hinsertion, hthrows with
    | some .creation, _, _, _ => exact ⟨rfl, rfl⟩
    | some (.log false), _, _, _ => exact ⟨rfl, rfl⟩
  · exact absurd hnone hfailure

end Step

theorem inv_of_reachable {s : State} (hrun : Reachable Initial Step s)
    (hcalls : s.issued.length < 2 ^ 64) (hrunning : s.terminated = false) : Inv s := by
  induction hrun with
  | start h =>
    obtain ⟨affinity, rfl⟩ := h
    exact inv_initial affinity
  | next _ hstep ih =>
    obtain ⟨hbefore, op, hop, rfl⟩ := hstep
    exact (ih (Nat.lt_of_le_of_lt (step_length_le hop) hcalls) hbefore).step hop hcalls hrunning

/-- A process that has ended has thrown in a release. -/
theorem terminated_of_reachable {s : State} (hrun : Reachable Initial Step s)
    (hended : s.terminated = true) : 0 < s.failedReleases := by
  induction hrun with
  | start h =>
    obtain ⟨affinity, rfl⟩ := h
    exact Bool.noConfusion hended
  | next _ hstep _ =>
    obtain ⟨-, op, hop, rfl⟩ := hstep
    rw [step_failedReleases hop, step_terminated hop hended]
    exact Nat.succ_pos _

theorem accounted_initial (affinity : AffinityMode) : Accounted (State.initial affinity) :=
  ⟨rfl, List.nodup_nil, List.Perm.nil, rfl, List.nodup_nil, rfl⟩

theorem accounted_of_reachable {s : State} (hrun : Reachable Initial Step s)
    (hcalls : s.issued.length < 2 ^ 64) (hinsertions : s.failedInsertions = 0)
    (hreleases : s.failedReleases = 0) : Accounted s := by
  induction hrun with
  | start h =>
    obtain ⟨affinity, rfl⟩ := h
    exact accounted_initial affinity
  | @next s t hrun hstep ih =>
    obtain ⟨hrunning, op, hop, rfl⟩ := hstep
    have hbefore := Nat.lt_of_le_of_lt (step_length_le hop) hcalls
    rw [step_failedInsertions hop] at hinsertions
    rw [step_failedReleases hop] at hreleases
    have hinsertion : op.failure.any Failure.atInsertion = false := by
      by_contra h
      rw [if_pos (Bool.eq_true_of_not_eq_false h)] at hinsertions
      exact absurd hinsertions (Nat.succ_ne_zero _)
    have hthrows : op.releaseThrows = false := by
      by_contra h
      rw [if_pos (Bool.eq_true_of_not_eq_false h)] at hreleases
      exact absurd hreleases (Nat.succ_ne_zero _)
    exact (ih hbefore (Nat.eq_zero_of_add_eq_zero_right hinsertions)
      (Nat.eq_zero_of_add_eq_zero_right hreleases)).step
        (inv_of_reachable hrun hbefore hrunning) hop hcalls hinsertion hthrows

/-- In a run of fewer than `2 ^ 64` calls the account is kept exactly as long as no insertion
throws and no log event of a release does, and then a failed call leaves the map and the total
as they were. -/
theorem accounted_iff {s : State} (hrun : Reachable Initial Step s)
    (hcalls : s.issued.length < 2 ^ 64) :
    (Accounted s ↔ s.failedInsertions = 0 ∧ s.failedReleases = 0) ∧
      ∀ op, s.terminated = false → Allowed s op → (s.step op).issued.length < 2 ^ 64 →
        op.failure ≠ none → op.failure.any Failure.atInsertion = false →
        op.releaseThrows = false →
        (s.step op).manager.managedObjects = s.manager.managedObjects ∧
          (s.step op).manager.totalMemoryUsage = s.manager.totalMemoryUsage := by
  refine ⟨⟨fun hacc => ?_, fun h => accounted_of_reachable hrun hcalls h.1 h.2⟩,
    fun op hrunning => (inv_of_reachable hrun hcalls hrunning).failed_call⟩
  have hinv := inv_of_reachable hrun hcalls hacc.running
  refine ⟨?_, hinv.releases⟩
  by_contra hne
  have hmissing := hinv.missing (Nat.pos_of_ne_zero hne)
  rw [hacc.released] at hmissing
  exact Nat.lt_irrefl 0 hmissing

/-- One call that succeeds, one that throws at its log event, and a drop. -/
def sampleRun : State :=
  (((State.initial .compact).step (.allocate 16 4096 none)).step
    (.allocateOnNode 32 1 8192 (some (.log false)))).step (.drop 0 false)

theorem reachable_sampleRun : Reachable Initial Step sampleRun :=
  (((Reachable.start ⟨.compact, rfl⟩).next ⟨rfl, .allocate 16 4096 none, by decide, rfl⟩).next
    ⟨rfl, .allocateOnNode 32 1 8192 (some (.log false)), by decide, rfl⟩).next
      ⟨rfl, .drop 0 false, by decide, rfl⟩

theorem accounted_iff_sampleRun : Accounted sampleRun ∧
    (sampleRun.step (.allocate 8 4096 (some .creation))).manager.totalMemoryUsage = 0 :=
  have h := accounted_iff reachable_sampleRun (by decide)
  ⟨h.1.mpr (by decide),
    (h.2 (.allocate 8 4096 (some .creation)) (by decide) (by decide) (by decide) (by decide)
      (by decide) (by decide)).2⟩

/-- The first call throws at `emplace`: its object is released without an entry. -/
def releasedWithoutEntry : State :=
  (State.initial .none).step (.allocate 16 4096 (some (.insertion false)))

/-- The first call throws at its log event, and its release at the next one. -/
def thrownInRelease : State :=
  (State.initial .none).step (.allocate 16 4096 (some (.log true)))

theorem not_always_accounted :
    (Reachable Initial Step releasedWithoutEntry ∧ ¬ Accounted releasedWithoutEntry) ∧
      Reachable Initial Step thrownInRelease ∧ ¬ Accounted thrownInRelease := by
  have hinsertion : Reachable Initial Step releasedWithoutEntry :=
    (Reachable.start ⟨.none, rfl⟩).next
      ⟨rfl, .allocate 16 4096 (some (.insertion false)), by decide, rfl⟩
  have hlog : Reachable Initial Step thrownInRelease :=
    (Reachable.start ⟨.none, rfl⟩).next
      ⟨rfl, .allocate 16 4096 (some (.log true)), by decide, rfl⟩
  refine ⟨⟨hinsertion, fun hacc => ?_⟩, hlog, fun hacc => ?_⟩
  · exact absurd hacc.released (by decide)
  · exact absurd hacc.running (by decide)

/-- The total of the first one is below zero. -/
example : releasedWithoutEntry.manager.totalMemoryUsage = -16 := by decide

end M3bp.MemoryAccounting
