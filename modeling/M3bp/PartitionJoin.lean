import Mathlib.Data.Finset.Card
import M3bp.Engine
import M3bp.Transition

/-!
Where a processor with scatter-gather ports waits for the fragments of a partition.
Each arrival stores its fragment in the row of its partition and then counts down;
the one that reaches zero moves the row into a run command. Broadcast inputs arrive
between these steps and are merged with the row when the command runs.
-/
namespace M3bp

namespace Engine.Local

/-- The store of `receive_non_broadcast_fragment`. -/
def storeFragment (t : Local) (port partition : ℕ) (o : Object) : Local :=
  { t with
    partitionedPool := t.partitionedPool.modify partition fun row => row.set port (some o) }

def countDown (t : Local) (partition : ℕ) : Local :=
  { t with waitingCounters := t.waitingCounters.modify partition (· - 1) }

def row (t : Local) (partition : ℕ) : List (Option Object) :=
  (t.partitionedPool[partition]?).getD []

/-- The row is moved from. -/
def moveRow (t : Local) (partition : ℕ) : Local :=
  { t with partitionedPool := t.partitionedPool.set partition [] }

def storeBroadcast (t : Local) (port : ℕ) (o : Object) : Local :=
  { t with broadcastInputs := t.broadcastInputs.set port (some o) }

end Engine.Local

namespace PartitionJoin

open Engine (Local Object)
open Transition

def hasMovement (proc : Processor) (port : ℕ) (movement : Movement) : Bool :=
  (proc.inputPorts[port]?).any fun p => p.movement = movement

/-- A `ScatterGatherProcessRunCommand`. -/
structure RunCommand where
  inputs : List (Option Object)
  partition : ℕ
  deriving DecidableEq, Repr

/-- The task with what has been delivered, the arrivals that have stored and not yet
counted down, and those that have counted down to zero and not yet moved the row. -/
structure State where
  task : Local
  fragments : ℕ × ℕ → Option Object
  uncounted : Finset (ℕ × ℕ)
  last : List ℕ
  created : List RunCommand

namespace State

def initial (proc : Processor) (workerCount partitionCount : ℕ) : State :=
  { task := Local.create (.scatterGatherProcess proc workerCount partitionCount)
    fragments := fun _ => none
    uncounted := ∅
    last := []
    created := [] }

variable (s : State)

def store (port partition : ℕ) (o : Object) : State :=
  { s with
    task := s.task.storeFragment port partition o
    fragments := Function.update s.fragments (port, partition) (some o)
    uncounted := insert (port, partition) s.uncounted }

def countDown (port partition : ℕ) : State :=
  { s with
    task := s.task.countDown partition
    uncounted := s.uncounted.erase (port, partition)
    last :=
      if (s.task.countDown partition).waitingCounters[partition]? = some 0 then
        partition :: s.last
      else s.last }

def createRun (partition : ℕ) : State :=
  { s with
    task := s.task.moveRow partition
    last := s.last.erase partition
    created := s.created ++ [{ inputs := s.task.row partition, partition := partition }] }

def broadcast (port : ℕ) (o : Object) : State := { s with task := s.task.storeBroadcast port o }

end State

/-- `receive_fragment` in its separate steps; no pair of a port and a partition
receives a second fragment. -/
inductive Step (proc : Processor) (partitionCount : ℕ) : State → State → Prop
  | store (s : State) (port partition : ℕ) (o : Object)
      (hport : hasMovement proc port .scatterGather = true) (hpartition : partition < partitionCount)
      (hnew : s.fragments (port, partition) = none) :
      Step proc partitionCount s (s.store port partition o)
  | countDown (s : State) (port partition : ℕ) (hstored : (port, partition) ∈ s.uncounted) :
      Step proc partitionCount s (s.countDown port partition)
  | createRun (s : State) (partition : ℕ) (hlast : partition ∈ s.last) :
      Step proc partitionCount s (s.createRun partition)
  | broadcast (s : State) (port : ℕ) (o : Object) (hport : hasMovement proc port .broadcast = true) :
      Step proc partitionCount s (s.broadcast port o)

def Run (proc : Processor) (workerCount partitionCount : ℕ) : State → Prop :=
  Reachable (fun s => s = State.initial proc workerCount partitionCount) (Step proc partitionCount)

/-- The steps are those of the engine's workers. -/
theorem effect_arrival {n : ℕ} (g : LogicalGraph) (s : Engine.State n) (choice : Engine.Choice)
    (w : Fin n) {l : ℕ} {proc : Processor} {workerCount partitionCount : ℕ}
    (hkind : g.kindOf l = some (.scatterGatherProcess proc workerCount partitionCount))
    (port partition : ℕ) (o : Object) :
    (Engine.effect g s choice w (.deliver (l, port) partition o)).change =
        some (l, if hasMovement proc port .broadcast then (s.locals l).storeBroadcast port o
          else (s.locals l).storeFragment port partition o) ∧
      (Engine.effect g s choice w (.countDown l partition)).change =
        some (l, (s.locals l).countDown partition) ∧
      (Engine.effect g s choice w (.createPartitionRun l partition)).change =
        some (l, (s.locals l).moveRow partition) ∧
      (Engine.effect g s choice w (.createPartitionRun l partition)).next =
        [.spawn (.scatterGatherRun l ((s.locals l).row partition) partition)] := by
  refine ⟨?_, rfl, rfl, rfl⟩
  simp only [Engine.effect, Engine.receiveFragment, hkind, Engine.receiveProcessFragment]
  by_cases hbroadcast : hasMovement proc port .broadcast = true
  · have hany : (proc.inputPorts[port]?).any (fun p => p.movement = .broadcast) = true := hbroadcast
    rw [if_pos hany, if_pos hbroadcast]
    rfl
  · have hany : ¬ (proc.inputPorts[port]?).any (fun p => p.movement = .broadcast) = true := hbroadcast
    rw [if_neg hany, if_neg hbroadcast]
    rfl

/-! What is still to come for a partition. -/

def scatterGatherPorts (proc : Processor) : Finset ℕ :=
  (Finset.range proc.inputPorts.length).filter fun port =>
    hasMovement proc port .scatterGather = true

theorem mem_scatterGatherPorts {proc : Processor} {port : ℕ} :
    port ∈ scatterGatherPorts proc ↔ hasMovement proc port .scatterGather = true := by
  rw [scatterGatherPorts, Finset.mem_filter, Finset.mem_range, and_iff_right_iff_imp]
  intro h
  by_contra hge
  rw [hasMovement, List.getElem?_eq_none (Nat.le_of_not_lt hge)] at h
  cases h

variable {proc : Processor} {workerCount partitionCount : ℕ} {s : State}

/-- The ports that have not yet counted down for the partition. -/
def State.waiting (s : State) (proc : Processor) (partition : ℕ) : Finset ℕ :=
  (scatterGatherPorts proc).filter fun port =>
    s.fragments (port, partition) = none ∨ (port, partition) ∈ s.uncounted

/-- What has been delivered for a partition, port by port. -/
def State.deliveredRow (s : State) (proc : Processor) (partition : ℕ) : List (Option Object) :=
  (List.range proc.inputPorts.length).map fun port => s.fragments (port, partition)

structure JoinInv (proc : Processor) (partitionCount : ℕ) (s : State) : Prop where
  delivered : ∀ port partition, (s.fragments (port, partition)).isSome = true →
    hasMovement proc port .scatterGather = true ∧ partition < partitionCount
  uncounted : ∀ x ∈ s.uncounted, (s.fragments x).isSome = true
  counters : ∀ p < partitionCount,
    s.task.waitingCounters[p]? = some (((s.waiting proc p).card : ℕ) : ℤ)
  rows : ∀ p < partitionCount, (∀ c ∈ s.created, c.partition ≠ p) →
    s.task.partitionedPool[p]? = some (s.deliveredRow proc p)
  fired : ∀ p < partitionCount, s.last.count p + s.created.countP (fun c => c.partition = p) =
    if s.waiting proc p = ∅ then 1 else 0
  last : ∀ p ∈ s.last, p < partitionCount
  commands : ∀ c ∈ s.created, c.partition < partitionCount ∧
    c.inputs = s.deliveredRow proc c.partition
  broadcasts_length : s.task.broadcastInputs.length = proc.inputPorts.length
  broadcasts : ∀ port o, s.task.broadcastInputs[port]? = some (some o) →
    hasMovement proc port .broadcast = true

theorem mem_waiting {p port : ℕ} : port ∈ s.waiting proc p ↔
    hasMovement proc port .scatterGather = true ∧
      (s.fragments (port, p) = none ∨ (port, p) ∈ s.uncounted) := by
  rw [State.waiting, Finset.mem_filter, mem_scatterGatherPorts]

theorem getElem?_deliveredRow {p port : ℕ} (h : port < proc.inputPorts.length) :
    (s.deliveredRow proc p)[port]? = some (s.fragments (port, p)) := by
  simp [State.deliveredRow, h]

section Steps

/-- No command has been created for a partition that still waits. -/
theorem JoinInv.not_fired (h : JoinInv proc partitionCount s) {port p : ℕ}
    (hp : p < partitionCount) (hport : port ∈ s.waiting proc p) :
    p ∉ s.last ∧ ∀ c ∈ s.created, c.partition ≠ p := by
  have hfired := h.fired p hp
  rw [if_neg (Finset.ne_empty_of_mem hport)] at hfired
  refine ⟨fun hlast => ?_, fun c hc hpartition => ?_⟩
  · have hpos := List.count_pos_iff.mpr hlast
    omega
  · have hpos : 0 < s.created.countP fun c => c.partition = p :=
      List.countP_pos_iff.mpr ⟨c, hc, by simpa using hpartition⟩
    omega

theorem waiting_store {port partition : ℕ} (hnew : s.fragments (port, partition) = none)
    (o : Object) (p : ℕ) : (s.store port partition o).waiting proc p = s.waiting proc p := by
  ext port'
  rw [mem_waiting, mem_waiting]
  by_cases heq : (port', p) = (port, partition)
  · rw [heq]
    simp [State.store, hnew]
  · simp [State.store, heq]

theorem deliveredRow_store (port partition : ℕ) (o : Object) (p : ℕ) : (s.store port partition o).deliveredRow proc p =
      if partition = p then (s.deliveredRow proc p).set port (some o)
      else s.deliveredRow proc p := by
  by_cases hp : partition = p
  · subst hp
    rw [if_pos rfl]
    refine List.ext_getElem (by simp [State.deliveredRow]) fun i hi hi' => ?_
    by_cases hi : port = i
    · subst hi
      simp [State.deliveredRow, State.store]
    · have hne : ¬ i = port := fun heq => hi heq.symm
      simp [State.deliveredRow, State.store, hi, hne]
  · rw [if_neg hp]
    refine List.map_congr_left fun i _ => ?_
    have hne : ¬ p = partition := fun heq => hp heq.symm
    simp [State.store, hne]

theorem JoinInv.store (h : JoinInv proc partitionCount s) {port partition : ℕ} (o : Object)
    (hport : hasMovement proc port .scatterGather = true) (hpartition : partition < partitionCount)
    (hnew : s.fragments (port, partition) = none) :
    JoinInv proc partitionCount (s.store port partition o) := by
  have hwaits : port ∈ s.waiting proc partition := mem_waiting.mpr ⟨hport, Or.inl hnew⟩
  have hnone := (h.not_fired hpartition hwaits).2
  refine ⟨?_, ?_, ?_, ?_, ?_, h.last, ?_, h.broadcasts_length, h.broadcasts⟩
  · intro port' p hsome
    by_cases heq : (port', p) = (port, partition)
    · cases heq
      exact ⟨hport, hpartition⟩
    · refine h.delivered port' p ?_
      simpa [State.store, heq] using hsome
  · intro x hx
    by_cases heq : x = (port, partition)
    · simp [State.store, heq]
    · have hold : x ∈ s.uncounted := by simpa [State.store, heq] using hx
      simpa [State.store, heq] using h.uncounted x hold
  · intro p hp
    rw [waiting_store hnew]
    exact h.counters p hp
  · intro p hp hcommands
    have hrow := h.rows p hp hcommands
    rw [deliveredRow_store]
    simp only [State.store, Engine.Local.storeFragment, List.getElem?_modify, hrow]
    split <;> rfl
  · intro p hp
    rw [waiting_store hnew]
    exact h.fired p hp
  · intro c hc
    obtain ⟨hp, hinputs⟩ := h.commands c hc
    refine ⟨hp, hinputs.trans ?_⟩
    rw [deliveredRow_store, if_neg fun heq => hnone c hc heq.symm]

theorem waiting_countDown (h : JoinInv proc partitionCount s) {port partition : ℕ}
    (hstored : (port, partition) ∈ s.uncounted) (p : ℕ) :
    (s.countDown port partition).waiting proc p =
      if partition = p then (s.waiting proc p).erase port else s.waiting proc p := by
  have hsome := h.uncounted _ hstored
  have hne : s.fragments (port, partition) ≠ none := fun hnone => by
    rw [hnone] at hsome
    cases hsome
  ext port'
  by_cases hp : partition = p
  · subst hp
    rw [if_pos rfl, Finset.mem_erase, mem_waiting, mem_waiting]
    by_cases hport : port' = port
    · subst hport
      simp [State.countDown, hne]
    · simp [State.countDown, hport]
  · rw [if_neg hp, mem_waiting, mem_waiting]
    have hp' : ¬ p = partition := fun heq => hp heq.symm
    simp [State.countDown, hp']

theorem JoinInv.countDown (h : JoinInv proc partitionCount s) {port partition : ℕ}
    (hstored : (port, partition) ∈ s.uncounted) :
    JoinInv proc partitionCount (s.countDown port partition) := by
  obtain ⟨hport, hpartition⟩ := h.delivered port partition (h.uncounted _ hstored)
  have hwaits : port ∈ s.waiting proc partition := mem_waiting.mpr ⟨hport, Or.inr hstored⟩
  have hcard := Finset.card_erase_of_mem hwaits
  have hpos := Finset.card_pos.mpr ⟨port, hwaits⟩
  have hcounters : ∀ p < partitionCount, (s.task.countDown partition).waitingCounters[p]? =
      some ((((s.countDown port partition).waiting proc p).card : ℕ) : ℤ) := by
    intro p hp
    rw [waiting_countDown h hstored]
    simp only [Engine.Local.countDown, List.getElem?_modify, h.counters p hp]
    by_cases heq : partition = p
    · subst heq
      simp only [if_true, Option.map_eq_map, Option.map_some, hcard]
      congr 1
      omega
    · simp [heq]
  refine ⟨h.delivered, ?_, hcounters, h.rows, ?_, ?_, h.commands, h.broadcasts_length, h.broadcasts⟩
  · intro x hx
    exact h.uncounted x (Finset.mem_of_mem_erase hx)
  · intro p hp
    -- the partition fires in this step exactly if it stops waiting
    have hzero : (s.task.countDown partition).waitingCounters[p]? = some 0 ↔
        (s.countDown port partition).waiting proc p = ∅ := by
      rw [hcounters p hp, Option.some.injEq, Nat.cast_eq_zero, Finset.card_eq_zero]
    have hfired := h.fired p hp
    by_cases heq : partition = p
    · subst heq
      rw [if_neg (Finset.ne_empty_of_mem hwaits)] at hfired
      by_cases hempty : (s.countDown port partition).waiting proc partition = ∅
      · rw [if_pos hempty]
        simp only [State.countDown, hzero.mpr hempty, if_true, List.count_cons_self]
        omega
      · rw [if_neg hempty]
        simp only [State.countDown, if_neg fun hz => hempty (hzero.mp hz)]
        exact hfired
    · have hlast : (s.countDown port partition).last.count p = s.last.count p := by
        simp only [State.countDown]
        split
        · rw [List.count_cons_of_ne heq]
        · rfl
      rw [hlast, waiting_countDown h hstored, if_neg heq]
      exact hfired
  · intro p hp
    simp only [State.countDown] at hp
    split at hp
    · rcases List.mem_cons.mp hp with rfl | hp
      · exact hpartition
      · exact h.last p hp
    · exact h.last p hp

theorem JoinInv.createRun (h : JoinInv proc partitionCount s) {partition : ℕ}
    (hlast : partition ∈ s.last) : JoinInv proc partitionCount (s.createRun partition) := by
  have hpartition := h.last partition hlast
  have hpos := List.count_pos_iff.mpr hlast
  have hfired := h.fired partition hpartition
  have hnone : ∀ c ∈ s.created, c.partition ≠ partition := by
    intro c hc heq
    have hpos' : 0 < s.created.countP fun c => c.partition = partition :=
      List.countP_pos_iff.mpr ⟨c, hc, by simpa using heq⟩
    split at hfired <;> omega
  have hrow : s.task.row partition = s.deliveredRow proc partition := by
    rw [Engine.Local.row, h.rows partition hpartition hnone]
    rfl
  refine ⟨h.delivered, h.uncounted, h.counters, ?_, ?_, ?_, ?_, h.broadcasts_length, h.broadcasts⟩
  · intro p hp hcommands
    have hne : partition ≠ p := fun heq =>
      hcommands { inputs := s.task.row partition, partition := partition }
        (List.mem_append_right _ (List.mem_singleton_self _)) heq
    have hold := h.rows p hp fun c hc => hcommands c (List.mem_append_left _ hc)
    simp only [State.createRun, Engine.Local.moveRow, List.getElem?_set_ne hne]
    exact hold
  · intro p hp
    have hcount : (s.createRun partition).last.count p +
        (s.createRun partition).created.countP (fun c => c.partition = p) =
        s.last.count p + s.created.countP fun c => c.partition = p := by
      simp only [State.createRun, List.countP_append, List.countP_singleton]
      by_cases heq : partition = p
      · subst heq
        rw [List.count_erase_self]
        simp only [decide_true, if_true]
        omega
      · rw [List.count_erase_of_ne fun hp' => heq hp'.symm]
        simp [heq]
    have hsame : (s.createRun partition).waiting proc p = s.waiting proc p := rfl
    rw [hcount, hsame]
    exact h.fired p hp
  · exact fun p hp => h.last p (List.mem_of_mem_erase hp)
  · intro c hc
    rcases List.mem_append.mp hc with hc | hc
    · exact h.commands c hc
    · rw [List.mem_singleton.mp hc]
      exact ⟨hpartition, hrow⟩

theorem JoinInv.broadcast (h : JoinInv proc partitionCount s) {port : ℕ} (o : Object)
    (hport : hasMovement proc port .broadcast = true) :
    JoinInv proc partitionCount (s.broadcast port o) := by
  refine ⟨h.delivered, h.uncounted, h.counters, h.rows, h.fired, h.last, h.commands, ?_, ?_⟩
  · simp [State.broadcast, Engine.Local.storeBroadcast, h.broadcasts_length]
  · intro port' o' hget
    by_cases heq : port = port'
    · exact heq ▸ hport
    · refine h.broadcasts port' o' ?_
      simpa [State.broadcast, Engine.Local.storeBroadcast, List.getElem?_set_ne heq] using hget

end Steps

section Commands

/-- What a command carries at a port. -/
theorem JoinInv.input (h : JoinInv proc partitionCount s) {c : RunCommand} (hc : c ∈ s.created)
    {port : ℕ} (hport : port < proc.inputPorts.length) :
    c.inputs[port]? = some (s.fragments (port, c.partition)) := by
  rw [(h.commands c hc).2, getElem?_deliveredRow hport]

/-- A scatter-gather port beside a broadcast port. -/
def joinProcessor : Processor :=
  { inputPorts :=
      [{ name := "in", movement := .scatterGather, valueComparator := none },
        { name := "side", movement := .broadcast, valueComparator := none }]
    outputPorts := []
    taskCount := 0
    maxConcurrency := 1
    consistent := by simp }

end Commands

end PartitionJoin

end M3bp
