import M3bp.Topology
import M3bp.WorkerPlacement

/-!
The worker that `random_worker_from_node` recommends. It is drawn from the list of a node,
and the list is empty where no worker has been placed. This does not depend on how the
rounds of the placement are filled: the lists are the inverse of the mapping, and the first
worker is placed on the first node.
-/
namespace M3bp.WorkerPlacement

/-- `size() - 1` as a `size_type`. -/
def lastIndex (size : ℕ) : ℕ := if size = 0 then 2 ^ 64 - 1 else size - 1

namespace LocalityManager

/-- `draw hi` is what `uniform_random_integer` returns for the bounds `0` and `hi`. An access
behind the end of a list makes the result `none`. -/
def randomWorkerFromNode (m : LocalityManager) (draw : ℕ → ℕ) (node : ℕ) : Option ℕ :=
  if m.nodeToWorker = [] then some (draw (lastIndex m.maxConcurrency))
  else (m.nodeToWorker[node]?).bind fun workers => workers[draw (lastIndex workers.length)]?

/-- One of the workers is placed on the node. -/
def Occupied (m : LocalityManager) (config : Configuration) (node : ℕ) : Prop :=
  ∃ w < config.maxConcurrency, m.threadNode w = node

/-- What a caller relies on: there is a list to draw from, and whatever is drawn is a worker
of the node. -/
def Recommends (m : LocalityManager) (config : Configuration) (node : ℕ) : Prop :=
  (∃ workers, m.nodeToWorker[node]? = some workers ∧ workers ≠ []) ∧
    ∀ draw : ℕ → ℕ, (∀ hi, draw hi ≤ hi) → ∃ w, m.randomWorkerFromNode draw node = some w ∧
      w < config.maxConcurrency ∧ m.threadNode w = node

end LocalityManager

/-- The loop head after `i` workers: the lists are the inverse of the mapping, and the first
worker is on the first node. -/
structure Listing (pu : List ℕ) (i : ℕ) (m : LocalityManager) : Prop where
  length : m.threadMapping.length = i
  node_count : m.nodeToWorker.length = pu.length
  mapped : ∀ n ∈ m.threadMapping, n < pu.length
  listed : ∀ n < pu.length, ∀ i, i ∈ m.nodeToWorker.getD n [] ↔ m.threadMapping[i]? = some n
  first : i ≠ 0 → m.threadMapping[0]? = some 0

section Listing

variable {pu : List ℕ} {m : LocalityManager} {i n : ℕ} {config : Configuration}

theorem listing_nodes (config : Configuration) (pu : List ℕ) : Listing pu 0 (nodes config pu) where
  length := rfl
  node_count := List.length_replicate
  mapped := nofun
  listed := fun n hn i => by simp [nodes, hn]
  first := fun h => absurd rfl h

theorem Listing.assign (h : Listing pu i m) (hn : n < pu.length) (hfirst : i = 0 → n = 0) :
    Listing pu (i + 1) (m.assign n i) where
  length := List.length_append.trans (congrArg (· + 1) h.length)
  node_count := by simpa [LocalityManager.assign] using h.node_count
  mapped := fun k hk => by
    rcases List.mem_append.mp hk with hk | hk
    · exact h.mapped k hk
    · rw [List.mem_singleton.mp hk]
      exact hn
  listed := fun k hk j => by
    rw [← h.length]
    exact listed_assign h.node_count h.listed n hk j
  first := fun _ => by
    show (m.threadMapping ++ [n])[0]? = some 0
    by_cases hi : i = 0
    · have hnil : m.threadMapping = [] := List.length_eq_zero_iff.mp (h.length.trans hi)
      rw [hnil, hfirst hi]
      rfl
    · rw [List.getElem?_append_left (by rw [h.length]; omega)]
      exact h.first hi

/-- A list that a worker is on is drawn from. -/
theorem Listing.recommends (h : Listing pu config.maxConcurrency m) {node : ℕ}
    (hoccupied : m.Occupied config node) : m.Recommends config node := by
  obtain ⟨w, hw, hnode⟩ := hoccupied
  have hget : ∀ i < config.maxConcurrency, m.threadMapping[i]? = some (m.threadNode i) := by
    intro i hi
    rw [← h.length] at hi
    simp [LocalityManager.threadNode, hi]
  have hlt : node < pu.length := hnode ▸ h.mapped _ (List.mem_of_getElem? (hget w hw))
  have hlist : node < m.nodeToWorker.length := h.node_count ▸ hlt
  have hworkers : m.nodeToWorker[node]? = some (m.nodeToWorker[node]) :=
    List.getElem?_eq_getElem hlist
  have hlisted : ∀ i, i ∈ m.nodeToWorker[node] ↔ m.threadMapping[i]? = some node := by
    intro i
    rw [← h.listed node hlt i, List.getD_eq_getElem?_getD, hworkers, Option.getD_some]
  have hmem : w ∈ m.nodeToWorker[node] := (hlisted w).mpr (hnode ▸ hget w hw)
  refine ⟨⟨_, hworkers, List.ne_nil_of_mem hmem⟩, fun draw hdraw => ?_⟩
  have hpos : 0 < (m.nodeToWorker[node]).length := List.length_pos_of_mem hmem
  have hindex : draw (lastIndex (m.nodeToWorker[node]).length) < (m.nodeToWorker[node]).length := by
    have hle := hdraw (lastIndex (m.nodeToWorker[node]).length)
    unfold lastIndex at hle ⊢
    rw [if_neg (Nat.ne_of_gt hpos)] at hle ⊢
    omega
  have hdrawn := (hlisted _).mp (List.getElem_mem hindex)
  refine ⟨(m.nodeToWorker[node])[draw (lastIndex (m.nodeToWorker[node]).length)], ?_, ?_, ?_⟩
  · unfold LocalityManager.randomWorkerFromNode
    rw [if_neg (List.ne_nil_of_length_pos (Nat.zero_lt_of_lt hlist)), hworkers, Option.bind_some]
    exact List.getElem?_eq_getElem hindex
  · rw [← h.length]
    exact (List.getElem?_eq_some_iff.mp hdrawn).1
  · rw [LocalityManager.threadNode, List.getD_eq_getElem?_getD, hdrawn, Option.getD_some]

theorem Listing.occupied_zero (h : Listing pu config.maxConcurrency m)
    (hthreads : 1 ≤ config.maxConcurrency) : m.Occupied config 0 := by
  refine ⟨0, hthreads, ?_⟩
  rw [LocalityManager.threadNode, List.getD_eq_getElem?_getD, h.first (by omega), Option.getD_some]

/-- A partition is mapped to the node of a worker. -/
theorem Listing.occupied_partitionNode (h : Listing pu config.maxConcurrency m)
    (hthreads : 1 ≤ config.maxConcurrency) (p : ℕ) :
    (m.mapPartitions config.maxConcurrency config.partitionCount).Occupied config
      ((m.mapPartitions config.maxConcurrency config.partitionCount).partitionNode p) := by
  by_cases hp : p < config.partitionCount
  · refine ⟨p % config.maxConcurrency, Nat.mod_lt _ hthreads, ?_⟩
    show m.threadMapping.getD (p % config.maxConcurrency) 0 =
      ((List.range config.partitionCount).map fun i =>
        m.threadMapping.getD (i % config.maxConcurrency) 0).getD p 0
    simp [hp]
  · have hzero : (m.mapPartitions config.maxConcurrency config.partitionCount).partitionNode p = 0 := by
      show ((List.range config.partitionCount).map fun i =>
        m.threadMapping.getD (i % config.maxConcurrency) 0).getD p 0 = 0
      simp [Nat.le_of_not_lt hp]
    rw [hzero]
    exact h.occupied_zero hthreads

theorem Listing.mapPartitions (h : Listing pu i m) (numThreads numPartitions : ℕ) :
    Listing pu i (m.mapPartitions numThreads numPartitions) :=
  ⟨h.length, h.node_count, h.mapped, h.listed, h.first⟩

end Listing

section Construct

variable {pu : List ℕ} {config : Configuration}

theorem skipEmpty_nil (fuel node : ℕ) : skipEmpty [] fuel node = .error .outOfFuel := by
  induction fuel generalizing node with
  | zero => rfl
  | succ fuel ih =>
    unfold skipEmpty
    exact ih _

theorem skipFull_lt {fuel j node j' node' : ℕ} (hnode : node < pu.length)
    (hskip : skipFull pu fuel j node = .ok (j', node')) : node' < pu.length := by
  induction fuel generalizing j node with
  | zero => cases hskip
  | succ fuel ih =>
    unfold skipFull at hskip
    split at hskip
    · exact ih (Nat.mod_lt _ (Nat.zero_lt_of_lt hnode)) hskip
    · cases hskip
      exact hnode

/-- The first node is the only one, or it has a unit. -/
def StartsAtZero (pu : List ℕ) : Prop := pu.length ≤ 1 ∨ 0 < pu.getD 0 0

theorem StartsAtZero.skipEmpty (h : StartsAtZero pu) (hpos : 0 < pu.length) {fuel n : ℕ}
    (hskip : skipEmpty pu fuel 0 = .ok n) : n = 0 := by
  rcases h with hone | hunit
  · have hlt := (skipEmpty_ok hpos hskip).1
    omega
  · cases fuel with
    | zero => cases hskip
    | succ fuel =>
      unfold WorkerPlacement.skipEmpty at hskip
      rw [if_neg (Nat.ne_of_gt hunit)] at hskip
      exact (Except.ok.inj hskip).symm

def CompactListing (pu : List ℕ) (i : ℕ) (st : CompactState) : Prop :=
  Listing pu i st.manager ∧ st.node < pu.length ∧ (i = 0 → st.j = 0 ∧ st.node = 0)

def ScatterListing (pu : List ℕ) (i : ℕ) (st : ScatterState) : Prop :=
  Listing pu i st.manager ∧ st.node < pu.length ∧ st.remains.length = pu.length

theorem compactListing_step (hzero : StartsAtZero pu) {fuel i : ℕ} {st st' : CompactState}
    (h : CompactListing pu i st) (hstep : compactStep fuel pu st i = .ok st') :
    CompactListing pu (i + 1) st' := by
  obtain ⟨hlisting, hnode, hstart⟩ := h
  unfold compactStep at hstep
  cases hskip : skipFull pu fuel st.j st.node with
  | error e => rw [hskip] at hstep; cases hstep
  | ok r =>
    rw [hskip] at hstep
    have heq := Except.ok.inj hstep
    subst heq
    have hlt : r.2 < pu.length := skipFull_lt hnode hskip
    refine ⟨hlisting.assign hlt fun hi => ?_, hlt, fun hi => absurd hi (Nat.succ_ne_zero i)⟩
    obtain ⟨hj, hnode⟩ := hstart hi
    rw [hj, hnode, skipFull_zero] at hskip
    cases hempty : WorkerPlacement.skipEmpty pu fuel 0 with
    | error e => rw [hempty] at hskip; cases hskip
    | ok n =>
      rw [hempty] at hskip
      cases hskip
      exact hzero.skipEmpty (Nat.zero_lt_of_lt hlt) hempty

theorem scatterListing_step (hzero : StartsAtZero pu) (hcount : totalPuCount pu ≠ 0) {fuel i : ℕ}
    {st st' : ScatterState} (h : ScatterListing pu i st)
    (hstep : scatterStep fuel pu st i = .ok st') : ScatterListing pu (i + 1) st' := by
  obtain ⟨hlisting, hnode, hlength⟩ := h
  have hrenewed : Listing pu i (st.renew pu i).manager ∧ (st.renew pu i).node < pu.length ∧
      (st.renew pu i).remains.length = pu.length := by
    unfold ScatterState.renew
    split
    · exact ⟨hlisting, Nat.zero_lt_of_lt hnode, rfl⟩
    · exact ⟨hlisting, hnode, hlength⟩
  obtain ⟨hlisting, hnode, hlength⟩ := hrenewed
  rw [scatterStep_eq hcount] at hstep
  cases hskip : skipEmpty (st.renew pu i).remains fuel (st.renew pu i).node with
  | error e => rw [hskip] at hstep; cases hstep
  | ok n =>
    rw [hskip] at hstep
    have heq := Except.ok.inj hstep
    subst heq
    have hlt : n < pu.length := hlength ▸ (skipEmpty_ok (hlength ▸ hnode) hskip).1
    refine ⟨hlisting.assign hlt fun hi => ?_, Nat.mod_lt _ (Nat.zero_lt_of_lt hnode),
      List.length_set.trans hlength⟩
    -- the first worker comes right after a reset
    subst hi
    have hreset : st.renew pu 0 = { st with remains := pu, node := 0 } := by
      unfold ScatterState.renew
      rw [if_pos (Nat.zero_mod _)]
    rw [hreset] at hskip
    exact hzero.skipEmpty (Nat.zero_lt_of_lt hlt) hskip

/-- What the constructor leaves, however its rounds are counted. -/
theorem listing_of_construct {fuel : ℕ} {affinity : AffinityMode} {m : LocalityManager}
    (haffinity : affinity ≠ .none) (hthreads : 1 ≤ config.maxConcurrency) (hzero : StartsAtZero pu)
    (hconstruct : construct fuel affinity config pu = .ok m) :
    ∃ m', Listing pu config.maxConcurrency m' ∧
      m = m'.mapPartitions config.maxConcurrency config.partitionCount := by
  cases affinity with
  | none => exact absurd rfl haffinity
  | compact =>
    unfold construct at hconstruct
    cases hst : compact fuel pu (nodes config pu) config.maxConcurrency with
    | error e => simp only [hst] at hconstruct; cases hconstruct
    | ok st =>
      simp only [hst] at hconstruct
      have hm := Except.ok.inj
        ((LocalityManager.placePartitions_eq st.manager hthreads).symm.trans hconstruct)
      have hpos : 0 < pu.length := by
        obtain ⟨u, v, hinit, hstep⟩ := step_of_foldlM_range hthreads hst
        have heq := Except.ok.inj hinit
        subst heq
        by_contra hnil
        obtain rfl : pu = [] := List.length_eq_zero_iff.mp (Nat.le_zero.mp (Nat.le_of_not_lt hnil))
        unfold compactStep at hstep
        rw [skipFull_zero, skipEmpty_nil] at hstep
        cases hstep
      have hstart : CompactListing pu 0 ⟨nodes config pu, 0, 0⟩ :=
        ⟨listing_nodes config pu, hpos, fun _ => ⟨rfl, rfl⟩⟩
      have hend : CompactListing pu config.maxConcurrency st :=
        foldlM_range_ok hstart (fun i _ _ _ h => compactListing_step hzero h) hst
      exact ⟨st.manager, hend.1, hm.symm⟩
  | scatter =>
    unfold construct at hconstruct
    cases hst : scatter fuel pu (nodes config pu) config.maxConcurrency with
    | error e => simp only [hst] at hconstruct; cases hconstruct
    | ok st =>
      simp only [hst] at hconstruct
      have hm := Except.ok.inj
        ((LocalityManager.placePartitions_eq st.manager hthreads).symm.trans hconstruct)
      obtain ⟨u, v, hinit, hstep⟩ := step_of_foldlM_range hthreads hst
      have hcount : totalPuCount pu ≠ 0 := by
        intro hcount
        unfold scatterStep at hstep
        rw [if_pos hcount] at hstep
        cases hstep
      have hpos : 0 < pu.length := by
        apply List.length_pos_iff.mpr
        rintro rfl
        exact hcount rfl
      have hstart : ScatterListing pu 0 ⟨nodes config pu, pu, 0⟩ :=
        ⟨listing_nodes config pu, hpos, rfl⟩
      have hend : ScatterListing pu config.maxConcurrency st :=
        foldlM_range_ok hstart (fun i _ _ _ h => scatterListing_step hzero hcount h) hst
      exact ⟨st.manager, hend.1, hm.symm⟩

end Construct

end M3bp.WorkerPlacement
