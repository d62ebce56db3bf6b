import M3bp.BalancedRounds
import M3bp.Counting
import M3bp.LocalityManager
import M3bp.Scheduler

/-!
Both loops fill rounds of workers: they place a worker on a node with a free unit, and
begin again with all units when none is free. The compact loop sees this from its cursor,
the scatter loop from the number of units in all.
-/
namespace M3bp.WorkerPlacement

open BalancedRounds

section Loop

variable {σ ε : Type} {f : σ → ℕ → Except ε σ} {s t : σ} {P : ℕ → σ → Prop}

theorem foldlM_range_succ (k : ℕ) : (List.range (k + 1)).foldlM f s =
    (List.range k).foldlM f s >>= fun u => f u k := by
  rw [List.range_succ, List.foldlM_append]
  simp

/-- A loop that ends has been through each of its steps. -/
theorem foldlM_range_succ_ok {k : ℕ} (hloop : (List.range (k + 1)).foldlM f s = .ok t) :
    ∃ u, (List.range k).foldlM f s = .ok u ∧ f u k = .ok t := by
  rw [foldlM_range_succ] at hloop
  cases hinit : (List.range k).foldlM f s with
  | error e => rw [hinit] at hloop; cases hloop
  | ok u =>
    rw [hinit] at hloop
    exact ⟨u, rfl, hloop⟩

theorem step_of_foldlM_range {k i : ℕ} (hi : i < k) (hloop : (List.range k).foldlM f s = .ok t) :
    ∃ u v, (List.range i).foldlM f s = .ok u ∧ f u i = .ok v := by
  induction k generalizing t with
  | zero => exact absurd hi (Nat.not_lt_zero i)
  | succ k ih =>
    obtain ⟨u, hinit, hlast⟩ := foldlM_range_succ_ok hloop
    rcases Nat.lt_succ_iff_lt_or_eq.mp hi with hi | rfl
    · exact ih hi hinit
    · exact ⟨u, t, hinit, hlast⟩

/-- What a loop from `0` has done when it ends. -/
theorem foldlM_range_ok (h0 : P 0 s) {k : ℕ}
    (hstep : ∀ i < k, ∀ s t, P i s → f s i = .ok t → P (i + 1) t)
    (hloop : (List.range k).foldlM f s = .ok t) : P k t := by
  induction k generalizing t with
  | zero =>
    have heq : s = t := Except.ok.inj hloop
    exact heq ▸ h0
  | succ k ih =>
    obtain ⟨u, hinit, hlast⟩ := foldlM_range_succ_ok hloop
    exact hstep k (Nat.lt_succ_self k) u t
      (ih (fun i hi => hstep i (Nat.lt_succ_of_lt hi)) hinit) hlast

/-- A loop ends where each of its steps does. -/
theorem exists_foldlM_range (h0 : P 0 s) {k : ℕ}
    (hstep : ∀ i < k, ∀ s, P i s → ∃ t, f s i = .ok t)
    (hok : ∀ i < k, ∀ s t, P i s → f s i = .ok t → P (i + 1) t) :
    ∃ t, (List.range k).foldlM f s = .ok t := by
  induction k with
  | zero => exact ⟨s, rfl⟩
  | succ k ih =>
    obtain ⟨u, hu⟩ := ih (fun i hi => hstep i (Nat.lt_succ_of_lt hi))
      fun i hi => hok i (Nat.lt_succ_of_lt hi)
    have hP : P k u := foldlM_range_ok h0 (fun i hi => hok i (Nat.lt_succ_of_lt hi)) hu
    obtain ⟨t, ht⟩ := hstep k (Nat.lt_succ_self k) u hP
    refine ⟨t, ?_⟩
    rw [foldlM_range_succ, hu]
    exact ht

end Loop

variable {pu : List ℕ}

def units (pu : List ℕ) (n : ℕ) : ℕ := pu.getD n 0

theorem total_units (pu : List ℕ) : total (units pu) pu.length = pu.sum := by
  have hsum := Counting.sum_range_getElem? id pu
  rw [List.map_id] at hsum
  rw [← hsum]
  apply Finset.sum_congr rfl
  intro n _
  unfold units
  rw [List.getD_eq_getElem?_getD]
  cases pu[n]? <;> rfl

/-- The mapping is filled in rounds, and the lists of the nodes are its inverse. -/
structure Filling (pu : List ℕ) (m : LocalityManager) (round : List ℕ) : Prop where
  rounds : Rounds (units pu) pu.length m.threadMapping round
  node_count : m.numaNodeCount = pu.length ∧ m.nodeToWorker.length = pu.length
  listed : ∀ n < pu.length, ∀ i, i ∈ m.nodeToWorker.getD n [] ↔ m.threadMapping[i]? = some n

theorem filling_nodes (config : Configuration) (pu : List ℕ) : Filling pu (nodes config pu) [] where
  rounds := Rounds.start
  node_count := ⟨rfl, List.length_replicate⟩
  listed := fun n hn i => by simp [nodes, hn]

variable {m : LocalityManager} {round : List ℕ}

/-- The lists of the nodes stay the inverse of the mapping when a worker is added. -/
theorem listed_assign (hlength : m.nodeToWorker.length = pu.length)
    (hlisted : ∀ n < pu.length, ∀ i, i ∈ m.nodeToWorker.getD n [] ↔ m.threadMapping[i]? = some n)
    (n : ℕ) {k : ℕ} (hk : k < pu.length) (i : ℕ) :
    i ∈ (m.assign n m.threadMapping.length).nodeToWorker.getD k [] ↔
      (m.assign n m.threadMapping.length).threadMapping[i]? = some k := by
  have hlisted := hlisted k hk i
  have hlength : k < m.nodeToWorker.length := hlength ▸ hk
  have hmapping : (m.assign n m.threadMapping.length).threadMapping[i]? = some k ↔
      m.threadMapping[i]? = some k ∨ (n = k ∧ i = m.threadMapping.length) := by
    show (m.threadMapping ++ [n])[i]? = some k ↔ _
    rcases Nat.lt_trichotomy i m.threadMapping.length with hi | rfl | hi
    · rw [List.getElem?_append_left hi]
      simp [Nat.ne_of_lt hi]
    · simp
    · simp [Nat.ne_of_gt hi, hi, Nat.le_of_lt hi]
  rw [hmapping, ← hlisted]
  show i ∈ (m.nodeToWorker.modify n (· ++ [m.threadMapping.length])).getD k [] ↔ _
  rw [List.getD_eq_getElem?_getD, List.getElem?_modify,
    List.getD_eq_getElem?_getD, List.getElem?_eq_getElem hlength]
  by_cases heq : n = k
  · simp [heq]
  · simp [heq]

theorem Filling.assign (h : Filling pu m round) {n : ℕ} (hn : n < pu.length)
    (hfree : round.count n < units pu n) :
    Filling pu (m.assign n m.threadMapping.length) (round ++ [n]) where
  rounds := h.rounds.place hn hfree
  node_count := ⟨h.node_count.1, by
    simpa [LocalityManager.assign] using h.node_count.2⟩
  listed := fun _ hk => listed_assign h.node_count.2 h.listed n hk

theorem Filling.renew (h : Filling pu m round) (hfull : ∀ n < pu.length, round.count n = units pu n) :
    Filling pu m [] where
  rounds := h.rounds.renew hfull
  node_count := h.node_count
  listed := h.listed

theorem workersOn_eq (m : LocalityManager) (node : ℕ) {start k : ℕ}
    (hend : start + k ≤ m.threadMapping.length) :
    m.workersOn node start k = ((m.threadMapping.drop start).take k).count node := by
  have hmap : (m.threadMapping.drop start).take k = (List.range' start k).map m.threadNode := by
    apply List.ext_getElem
    · rw [List.length_take, List.length_drop, List.length_map, List.length_range']
      omega
    · intro i hi _
      have hik : i < k := by
        rw [List.length_take] at hi
        omega
      have hlt : start + i < m.threadMapping.length := by omega
      simp [LocalityManager.threadNode, hlt]
  rw [hmap, List.count_eq_countP, List.countP_map]
  apply List.countP_congr
  intro i _
  simp

/-- Filled rounds are what the placement promises. -/
theorem Filling.balanced (h : Filling pu m round) {config : Configuration}
    (hlength : m.threadMapping.length = config.maxConcurrency)
    (hthreads : 1 ≤ config.maxConcurrency) :
    Balanced config pu (m.mapPartitions config.maxConcurrency config.partitionCount) := by
  have htotal := total_units pu
  have hget : ∀ i < config.maxConcurrency, m.threadMapping[i]? = some (m.threadNode i) := by
    intro i hi
    rw [← hlength] at hi
    simp [LocalityManager.threadNode, hi]
  refine ⟨h.node_count, fun i hi => ?_, fun n hn i => ?_, fun q hq n hn => ?_,
    fun q k hk hend n hn => ?_, fun p hp => ?_⟩
  · exact h.rounds.mem _ (List.mem_of_getElem? (hget i hi))
  · show i ∈ m.nodeToWorker.getD n [] ↔ i < config.maxConcurrency ∧ m.threadNode i = n
    rw [h.listed n hn i]
    constructor
    · intro hi
      have hlt := (List.getElem?_eq_some_iff.mp hi).1
      rw [hlength] at hlt
      exact ⟨hlt, Option.some.inj ((hget i hlt).symm.trans hi)⟩
    · rintro ⟨hi, rfl⟩
      exact hget i hi
  · show m.workersOn n (q * pu.sum) pu.sum = units pu n
    have hblock := h.rounds.count_block (by rw [htotal, hlength]; exact hq) hn
    rw [htotal] at hblock
    have hend : q * pu.sum + pu.sum ≤ m.threadMapping.length := by
      rw [hlength, ← Nat.succ_mul]
      exact hq
    rw [workersOn_eq m n hend]
    exact hblock
  · show m.workersOn n (q * pu.sum) k ≤ units pu n
    have hblock := h.rounds.count_block_le q (k := k) (by rw [htotal]; exact hk) hn
    rw [htotal] at hblock
    rw [workersOn_eq m n (by rw [hlength]; exact hend)]
    exact hblock
  · refine ⟨p % config.maxConcurrency, Nat.mod_lt _ hthreads, ?_⟩
    show ((List.range config.partitionCount).map fun i =>
      m.threadMapping.getD (i % config.maxConcurrency) 0).getD p 0 =
        m.threadMapping.getD (p % config.maxConcurrency) 0
    simp [hp]

/-- The manager as the scheduler sees it. -/
structure LocalityManager.Shows (m : LocalityManager) (lm : M3bp.LocalityManager) : Prop where
  maxConcurrency : lm.maxConcurrency = m.maxConcurrency
  nodeCount : lm.nodeCount = m.numaNodeCount
  threadMapping : ∀ w < m.maxConcurrency, lm.threadMapping w = m.threadNode w

/-- What the scheduler assumes of its manager is what the placement sees to. -/
theorem Balanced.exists_view {config : Configuration} (h : Balanced config pu m)
    (hcount : m.maxConcurrency = config.maxConcurrency) (hthreads : 1 ≤ config.maxConcurrency) :
    ∃ lm, m.Shows lm := by
  have hmapped : ∀ w,
      (if w < config.maxConcurrency then m.threadNode w else m.threadNode 0) < m.numaNodeCount := by
    intro w
    rw [h.node_count.1]
    split
    case isTrue hw => exact (h.mapped w hw).1
    case isFalse => exact (h.mapped 0 hthreads).1
  exact ⟨⟨m.maxConcurrency, m.numaNodeCount, _, hmapped⟩, rfl, rfl,
    fun w hw => if_pos (hcount ▸ hw)⟩

section Skip

/-- Every node comes up when the nodes are gone through in turn. -/
theorem exists_turns {N node n : ℕ} (hnode : node < N) (hn : n < N) :
    ∃ d < N, (node + d) % N = n := by
  rcases Nat.lt_or_ge n node with hlt | hge
  · refine ⟨n + N - node, by omega, ?_⟩
    rw [show node + (n + N - node) = n + N by omega, Nat.add_mod_right]
    exact Nat.mod_eq_of_lt hn
  · refine ⟨n - node, by omega, ?_⟩
    rw [Nat.add_sub_cancel' hge]
    exact Nat.mod_eq_of_lt hn

/-- The loop ends at the first node with a free unit. -/
theorem skipEmpty_ok {remains : List ℕ} {fuel node n : ℕ} (hnode : node < remains.length)
    (hskip : skipEmpty remains fuel node = .ok n) : n < remains.length ∧ 0 < remains.getD n 0 := by
  induction fuel generalizing node with
  | zero => cases hskip
  | succ fuel ih =>
    unfold skipEmpty at hskip
    by_cases hempty : remains.getD node 0 = 0
    · rw [if_pos hempty] at hskip
      exact ih (Nat.mod_lt _ (Nat.zero_lt_of_lt hnode)) hskip
    · rw [if_neg hempty] at hskip
      have heq : node = n := Except.ok.inj hskip
      exact heq ▸ ⟨hnode, Nat.pos_of_ne_zero hempty⟩

theorem exists_skipEmpty {remains : List ℕ} {fuel node : ℕ} (d : ℕ) (hfuel : d < fuel)
    (hnode : node < remains.length)
    (hfree : 0 < remains.getD ((node + d) % remains.length) 0) :
    ∃ n, skipEmpty remains fuel node = .ok n := by
  induction d generalizing fuel node with
  | zero =>
    obtain ⟨fuel, rfl⟩ := Nat.exists_eq_succ_of_ne_zero (Nat.ne_zero_of_lt hfuel)
    rw [Nat.add_zero, Nat.mod_eq_of_lt hnode] at hfree
    exact ⟨node, if_neg (Nat.ne_of_gt hfree)⟩
  | succ d ih =>
    obtain ⟨fuel, rfl⟩ := Nat.exists_eq_succ_of_ne_zero (Nat.ne_zero_of_lt hfuel)
    unfold skipEmpty
    by_cases hempty : remains.getD node 0 = 0
    · rw [if_pos hempty]
      apply ih (Nat.lt_of_succ_lt_succ hfuel) (Nat.mod_lt _ (Nat.zero_lt_of_lt hnode))
      rw [Nat.mod_add_mod, Nat.add_assoc, Nat.add_comm 1 d]
      exact hfree
    · exact ⟨node, if_neg hempty⟩

/-- With a unit left on some node, as much fuel as there are nodes is enough. -/
theorem skipEmpty_terminates {remains : List ℕ} {fuel node n : ℕ} (hfuel : remains.length ≤ fuel)
    (hnode : node < remains.length) (hn : n < remains.length) (hfree : 0 < remains.getD n 0) :
    ∃ k, skipEmpty remains fuel node = .ok k := by
  obtain ⟨d, hd, hturn⟩ := exists_turns hnode hn
  exact exists_skipEmpty d (Nat.lt_of_lt_of_le hd hfuel) hnode (hturn.symm ▸ hfree)

/-- With no unit left, the loop is endless. -/
theorem skipEmpty_endless {remains : List ℕ} (hempty : ∀ n < remains.length, remains.getD n 0 = 0)
    (fuel : ℕ) {node : ℕ} (hnode : node < remains.length) :
    skipEmpty remains fuel node = .error .outOfFuel := by
  induction fuel generalizing node with
  | zero => rfl
  | succ fuel ih =>
    unfold skipEmpty
    rw [if_pos (hempty node hnode)]
    exact ih (Nat.mod_lt _ (Nat.zero_lt_of_lt hnode))

/-- After its first round through, the compact loop skips as the scatter loop does. -/
theorem skipFull_zero (fuel node : ℕ) :
    skipFull pu fuel 0 node = (skipEmpty pu fuel node).map fun n => (0, n) := by
  induction fuel generalizing node with
  | zero => rfl
  | succ fuel ih =>
    unfold skipFull skipEmpty
    by_cases hempty : pu.getD node 0 = 0
    · rw [if_pos hempty.symm, if_pos hempty]
      exact ih _
    · rw [if_neg (Ne.symm hempty), if_neg hempty]
      rfl

theorem skipFull_terminates {fuel j node n : ℕ} (hfuel : pu.length < fuel)
    (hnode : node < pu.length) (hn : n < pu.length) (hfree : 0 < pu.getD n 0) :
    ∃ r, skipFull pu fuel j node = .ok r := by
  obtain ⟨fuel, rfl⟩ := Nat.exists_eq_succ_of_ne_zero (Nat.ne_zero_of_lt hfuel)
  unfold skipFull
  by_cases hfull : j = pu.getD node 0
  · obtain ⟨k, hk⟩ := skipEmpty_terminates (Nat.le_of_lt_succ hfuel)
      (Nat.mod_lt (node + 1) (Nat.zero_lt_of_lt hnode)) hn hfree
    refine ⟨(0, k), ?_⟩
    rw [if_pos hfull, skipFull_zero, hk]
    rfl
  · exact ⟨(j, node), if_neg hfull⟩

end Skip

section Compact

/-- The cursor of the compact loop: the nodes before it are full and those behind it are
empty in the round. -/
structure Cursor (pu : List ℕ) (m : LocalityManager) (j node : ℕ) (round : List ℕ) : Prop where
  filling : Filling pu m round
  node_lt : node < pu.length
  full : ∀ n < node, round.count n = units pu n
  taken : round.count node = j
  empty : ∀ n, node < n → round.count n = 0

variable {j node : ℕ}

theorem Cursor.j_le (h : Cursor pu m j node round) : j ≤ units pu node :=
  h.taken ▸ h.filling.rounds.count_le node

/-- A cursor that leaves a full node comes to the next one, or to the next round. -/
theorem Cursor.skip (h : Cursor pu m j node round) (hfull : j = units pu node) :
    ∃ round, Cursor pu m 0 ((node + 1) % pu.length) round := by
  have hbefore : ∀ n < node + 1, round.count n = units pu n := by
    intro n hn
    rcases Nat.lt_succ_iff_lt_or_eq.mp hn with hn | rfl
    · exact h.full n hn
    · exact h.taken.trans hfull
  rcases Nat.lt_or_ge (node + 1) pu.length with hlt | hge
  · rw [Nat.mod_eq_of_lt hlt]
    exact ⟨round, h.filling, hlt, hbefore, h.empty _ (Nat.lt_succ_self node),
      fun n hn => h.empty n (Nat.lt_of_succ_lt hn)⟩
  · have hlast : node + 1 = pu.length := Nat.le_antisymm h.node_lt hge
    rw [hlast, Nat.mod_self]
    exact ⟨[], h.filling.renew (hlast ▸ hbefore), Nat.zero_lt_of_lt h.node_lt,
      fun n hn => absurd hn (Nat.not_lt_zero n), rfl, fun _ _ => rfl⟩

theorem Cursor.skipFull {fuel j' node' : ℕ} (h : Cursor pu m j node round)
    (hskip : skipFull pu fuel j node = .ok (j', node')) :
    j' ≠ units pu node' ∧ ∃ round, Cursor pu m j' node' round := by
  induction fuel generalizing j node round with
  | zero => cases hskip
  | succ fuel ih =>
    unfold WorkerPlacement.skipFull at hskip
    by_cases hfull : j = pu.getD node 0
    · rw [if_pos hfull] at hskip
      obtain ⟨next, hnext⟩ := h.skip hfull
      exact ih hnext hskip
    · rw [if_neg hfull] at hskip
      have heq : (j, node) = (j', node') := Except.ok.inj hskip
      cases heq
      exact ⟨hfull, round, h⟩

theorem Cursor.assign (h : Cursor pu m j node round) (hfree : j ≠ units pu node) :
    Cursor pu (m.assign node m.threadMapping.length) (j + 1) node (round ++ [node]) where
  filling := h.filling.assign h.node_lt (h.taken ▸ Nat.lt_of_le_of_ne h.j_le hfree)
  node_lt := h.node_lt
  full := fun n hn => by
    simp [h.full n hn, Nat.ne_of_gt hn]
  taken := by simp [h.taken]
  empty := fun n hn => by
    simp [h.empty n hn, Nat.ne_of_lt hn]

/-- The loop head after `i` workers. -/
def CompactHead (pu : List ℕ) (i : ℕ) (st : CompactState) : Prop :=
  st.manager.threadMapping.length = i ∧ ∃ round, Cursor pu st.manager st.j st.node round

theorem compactStep_ok {fuel i : ℕ} {st st' : CompactState} (h : CompactHead pu i st)
    (hstep : compactStep fuel pu st i = .ok st') : CompactHead pu (i + 1) st' := by
  obtain ⟨rfl, round, hcursor⟩ := h
  unfold compactStep at hstep
  cases hskip : skipFull pu fuel st.j st.node with
  | error e => rw [hskip] at hstep; cases hstep
  | ok r =>
    rw [hskip] at hstep
    obtain ⟨hfree, next, hnext⟩ := hcursor.skipFull hskip
    have heq := Except.ok.inj hstep
    subst heq
    exact ⟨List.length_append, next ++ [r.2], hnext.assign hfree⟩

theorem exists_compactStep {fuel i n : ℕ} {st : CompactState} (h : CompactHead pu i st)
    (hfuel : pu.length < fuel) (hn : n < pu.length) (hfree : 0 < pu.getD n 0) :
    ∃ st', compactStep fuel pu st i = .ok st' := by
  obtain ⟨_, round, hcursor⟩ := h
  obtain ⟨r, hr⟩ := skipFull_terminates (j := st.j) hfuel hcursor.node_lt hn hfree
  unfold compactStep
  rw [hr]
  exact ⟨_, rfl⟩

theorem exists_unit (hsum : 0 < pu.sum) : ∃ n < pu.length, 0 < pu.getD n 0 := by
  rw [← total_units] at hsum
  obtain ⟨n, hn, hpos⟩ := Counting.exists_pos_of_sum_pos hsum
  exact ⟨n, Finset.mem_range.mp hn, hpos⟩

theorem places_compact (hsum : 0 < pu.sum) {config : Configuration}
    (hthreads : 1 ≤ config.maxConcurrency) : Places .compact config pu := by
  obtain ⟨n, hn, hfree⟩ := exists_unit hsum
  have hstart : CompactHead pu 0 ⟨nodes config pu, 0, 0⟩ :=
    ⟨rfl, [], filling_nodes config pu, Nat.zero_lt_of_lt hn,
      fun n hn => absurd hn (Nat.not_lt_zero n), rfl, fun _ _ => rfl⟩
  obtain ⟨st, hst⟩ : ∃ st, compact (pu.length + 1) pu (nodes config pu) config.maxConcurrency =
      .ok st :=
    exists_foldlM_range hstart
      (fun i _ st h => exists_compactStep h (Nat.lt_succ_self _) hn hfree)
      fun i _ st st' h => compactStep_ok h
  obtain ⟨hlength, round, hcursor⟩ : CompactHead pu config.maxConcurrency st :=
    foldlM_range_ok hstart (fun i _ st st' h => compactStep_ok h) hst
  refine ⟨pu.length + 1, _, ?_, hcursor.filling.balanced hlength hthreads⟩
  unfold construct
  simp only [hst]
  exact LocalityManager.placePartitions_eq _ hthreads

end Compact

section Scatter

/-- The round and what remains are together all units. -/
structure Remaining (pu : List ℕ) (i : ℕ) (st : ScatterState) (round : List ℕ) : Prop where
  length : st.manager.threadMapping.length = i
  node_lt : st.node < pu.length
  remains_length : st.remains.length = pu.length
  filling : Filling pu st.manager round
  units_eq : ∀ n < pu.length, round.count n + st.remains.getD n 0 = units pu n

/-- The loop head after `i` workers, the last of them in the round. -/
def ScatterHead (pu : List ℕ) (i : ℕ) (st : ScatterState) : Prop :=
  ∃ round, Remaining pu i st round ∧ (i ≠ 0 → round ≠ [])

variable {i : ℕ} {st st' : ScatterState}

/-- At a multiple of the number of units the round is over, or has not begun. -/
theorem Filling.over (h : Filling pu m round)
    (hmod : m.threadMapping.length % pu.sum = 0) : Filling pu m [] := by
  obtain ⟨q, hlength, hdrop, _⟩ := h.rounds.blocks
  have hle := h.rounds.length_le
  rw [total_units] at hlength hle
  rw [hlength, Nat.mul_add_mod_self_right] at hmod
  rcases Nat.lt_or_ge round.length pu.sum with hlt | hge
  · rw [Nat.mod_eq_of_lt hlt] at hmod
    exact List.length_eq_zero_iff.mp hmod ▸ h
  · exact h.renew (h.rounds.full (by rw [total_units]; exact hge))

theorem Filling.length_lt (h : Filling pu m round)
    (hmod : m.threadMapping.length % pu.sum ≠ 0) : round.length < pu.sum := by
  obtain ⟨q, hlength, _, _⟩ := h.rounds.blocks
  have hle := h.rounds.length_le
  rw [total_units] at hlength hle
  apply Nat.lt_of_le_of_ne hle
  intro heq
  apply hmod
  rw [hlength, heq, Nat.mul_add_mod_self_right, Nat.mod_self]

theorem Remaining.renew (h : Remaining pu i st round)
    (hreset : i % totalPuCount pu = 0 → i % pu.sum = 0) :
    ∃ round, Remaining pu i (st.renew pu i) round := by
  unfold ScatterState.renew
  by_cases hzero : i % totalPuCount pu = 0
  · have hover : Filling pu st.manager [] := h.filling.over (h.length.symm ▸ hreset hzero)
    rw [if_pos hzero]
    exact ⟨[], h.length, Nat.zero_lt_of_lt h.node_lt, rfl, hover, fun n _ => Nat.zero_add _⟩
  · rw [if_neg hzero]
    exact ⟨round, h⟩

/-- Where the rounds are renewed in time, some unit is free. -/
theorem Remaining.exists_free (h : Remaining pu i (st.renew pu i) round) (hsum : 0 < pu.sum)
    (hreset : i % pu.sum = 0 → i % totalPuCount pu = 0) :
    ∃ n < pu.length, 0 < (st.renew pu i).remains.getD n 0 := by
  by_cases hzero : i % totalPuCount pu = 0
  · have hremains : (st.renew pu i).remains = pu := by
      unfold ScatterState.renew
      rw [if_pos hzero]
    rw [hremains]
    exact exists_unit hsum
  · have hlt : round.length < pu.sum :=
      h.filling.length_lt (h.length.symm ▸ fun hmod => hzero (hreset hmod))
    rw [← total_units] at hlt
    obtain ⟨n, hn, hfree⟩ := h.filling.rounds.exists_free hlt
    have hunits := h.units_eq n hn
    exact ⟨n, hn, by omega⟩

theorem Remaining.place (h : Remaining pu i st round) {n : ℕ} (hn : n < pu.length)
    (hfree : 0 < st.remains.getD n 0) :
    Remaining pu (i + 1)
      { manager := st.manager.assign n i
        remains := st.remains.set n (st.remains.getD n 0 - 1)
        node := (n + 1) % pu.length } (round ++ [n]) where
  length := List.length_append.trans (congrArg (· + 1) h.length)
  node_lt := Nat.mod_lt _ (Nat.zero_lt_of_lt hn)
  remains_length := List.length_set.trans h.remains_length
  filling := by
    have hunits := h.units_eq n hn
    rw [← h.length]
    exact h.filling.assign hn (by omega)
  units_eq := fun k hk => by
    have hunits := h.units_eq k hk
    have hlt : n < st.remains.length := h.remains_length ▸ hn
    simp only [List.getD_eq_getElem?_getD] at hfree hunits ⊢
    by_cases heq : n = k
    · subst k
      simp only [List.count_append, List.count_singleton_self, List.getElem?_set_self hlt,
        Option.getD_some]
      omega
    · simpa [heq, List.getElem?_set_ne heq] using hunits

theorem scatterStep_eq (hcount : totalPuCount pu ≠ 0) (fuel : ℕ) (st : ScatterState) (i : ℕ) :
    scatterStep fuel pu st i = (skipEmpty (st.renew pu i).remains fuel (st.renew pu i).node).map
      fun n =>
        { manager := (st.renew pu i).manager.assign n i
          remains := (st.renew pu i).remains.set n ((st.renew pu i).remains.getD n 0 - 1)
          node := (n + 1) % pu.length } := by
  unfold scatterStep
  rw [if_neg hcount]
  rfl

theorem scatterStep_ok {fuel : ℕ} (hcount : totalPuCount pu ≠ 0)
    (hreset : i % totalPuCount pu = 0 → i % pu.sum = 0) (h : ScatterHead pu i st)
    (hstep : scatterStep fuel pu st i = .ok st') : ScatterHead pu (i + 1) st' := by
  obtain ⟨_, hhead, _⟩ := h
  obtain ⟨round, hrenewed⟩ := hhead.renew hreset
  have hlength := hrenewed.remains_length
  rw [scatterStep_eq hcount] at hstep
  cases hskip : skipEmpty (st.renew pu i).remains fuel (st.renew pu i).node with
  | error e => rw [hskip] at hstep; cases hstep
  | ok n =>
    rw [hskip] at hstep
    have heq := Except.ok.inj hstep
    subst heq
    obtain ⟨hn, hfree⟩ := skipEmpty_ok (hlength.symm ▸ hrenewed.node_lt) hskip
    exact ⟨round ++ [n], hrenewed.place (hlength ▸ hn) hfree, fun _ => by simp⟩

theorem exists_scatterStep {fuel : ℕ} (hcount : totalPuCount pu ≠ 0) (hsum : 0 < pu.sum)
    (hreset : i % totalPuCount pu = 0 ↔ i % pu.sum = 0) (hfuel : pu.length ≤ fuel)
    (h : ScatterHead pu i st) : ∃ st', scatterStep fuel pu st i = .ok st' := by
  obtain ⟨_, hhead, _⟩ := h
  obtain ⟨round, hrenewed⟩ := hhead.renew hreset.mp
  have hlength := hrenewed.remains_length
  obtain ⟨n, hn, hfree⟩ := hrenewed.exists_free hsum hreset.mpr
  obtain ⟨k, hk⟩ := skipEmpty_terminates (hlength.symm ▸ hfuel) (hlength.symm ▸ hrenewed.node_lt)
    (hlength.symm ▸ hn) hfree
  rw [scatterStep_eq hcount, hk]
  exact ⟨_, rfl⟩

theorem scatterHead_start (config : Configuration) (hsum : 0 < pu.sum) :
    ScatterHead pu 0 ⟨nodes config pu, pu, 0⟩ := by
  obtain ⟨n, hn, _⟩ := exists_unit hsum
  exact ⟨[], ⟨rfl, Nat.zero_lt_of_lt hn, rfl, filling_nodes config pu, fun _ _ => Nat.zero_add _⟩,
    fun h => absurd rfl h⟩

/-- The loop resets at each multiple of the number of units and nowhere else. -/
def ResetsInTime (pu : List ℕ) (numThreads : ℕ) : Prop :=
  totalPuCount pu ≠ 0 ∧ ∀ i < numThreads, i % totalPuCount pu = 0 ↔ i % pu.sum = 0

theorem scatter_ok {fuel : ℕ} {config : Configuration} {k : ℕ} (hsum : 0 < pu.sum)
    (hreset : ResetsInTime pu k) (hloop : scatter fuel pu (nodes config pu) k = .ok st) :
    ScatterHead pu k st :=
  foldlM_range_ok (scatterHead_start config hsum)
    (fun i hi _ _ h => scatterStep_ok hreset.1 (hreset.2 i hi).mp h) hloop

theorem places_scatter (hsum : 0 < pu.sum) {config : Configuration}
    (hthreads : 1 ≤ config.maxConcurrency) (hreset : ResetsInTime pu config.maxConcurrency) :
    Places .scatter config pu := by
  obtain ⟨st, hst⟩ : ∃ st, scatter pu.length pu (nodes config pu) config.maxConcurrency = .ok st :=
    exists_foldlM_range (scatterHead_start config hsum)
      (fun i hi _ h => exists_scatterStep hreset.1 hsum (hreset.2 i hi) (Nat.le_refl _) h)
      fun i hi _ _ h => scatterStep_ok hreset.1 (hreset.2 i hi).mp h
  obtain ⟨round, hhead, _⟩ := scatter_ok hsum hreset hst
  refine ⟨pu.length, _, ?_, hhead.filling.balanced hhead.length hthreads⟩
  unfold construct
  simp only [hst]
  exact LocalityManager.placePartitions_eq _ hthreads

/-- A sum that an `int` can hold is computed right. -/
theorem totalPuCount_eq (h : pu.sum < 2 ^ 31) : totalPuCount pu = pu.sum := by
  have hfold : ∀ (l : List ℕ) (acc : ℤ), 0 ≤ acc → acc + l.sum < 2 ^ 31 →
      l.foldl (fun sum x => toInt ((toSizeType sum + x) % 2 ^ 64)) acc = acc + l.sum := by
    intro l
    induction l with
    | nil => exact fun acc _ _ => by simp
    | cons x l ih =>
      intro acc hacc hlt
      rw [List.sum_cons, Nat.cast_add] at hlt ⊢
      have hstep : toInt ((toSizeType acc + x) % 2 ^ 64) = acc + x := by
        have hsize : (toSizeType acc + x) % 2 ^ 64 = acc.toNat + x := by
          unfold toSizeType
          omega
        have hint : toInt (acc.toNat + x) = (acc.toNat + x : ℕ) :=
          Int.bmod_eq_of_le (by omega) (by omega)
        rw [hsize, hint]
        omega
      rw [List.foldl_cons, hstep, ih (acc + x) (by omega) (by omega), Int.add_assoc]
  unfold totalPuCount accumulate
  rw [hfold pu 0 (Int.le_refl 0) (by omega)]
  unfold toSizeType
  omega

/-- The condition on the inputs under which the scatter loop counts its rounds right. -/
def CountsRounds (affinity : AffinityMode) (config : Configuration) (pu : List ℕ) : Prop :=
  affinity = .compact ∨ totalPuCount pu = pu.sum ∨
    config.maxConcurrency ≤ min pu.sum (totalPuCount pu)

theorem resetsInTime {config : Configuration} (hsum : 0 < pu.sum)
    (hthreads : 1 ≤ config.maxConcurrency)
    (h : totalPuCount pu = pu.sum ∨ config.maxConcurrency ≤ min pu.sum (totalPuCount pu)) :
    ResetsInTime pu config.maxConcurrency := by
  rcases h with heq | hle
  · exact ⟨heq ▸ Nat.ne_of_gt hsum, fun i _ => by rw [heq]⟩
  · refine ⟨by omega, fun i hi => ?_⟩
    rw [Nat.mod_eq_of_lt (by omega), Nat.mod_eq_of_lt (by omega)]

theorem maxConcurrency_of_placePartitions {config : Configuration} {m' : LocalityManager}
    (h : m'.placePartitions config = .ok m) : m.maxConcurrency = m'.maxConcurrency := by
  unfold LocalityManager.placePartitions at h
  split at h
  · cases h
  · cases h
    rfl

theorem maxConcurrency_of_construct {fuel : ℕ} {affinity : AffinityMode} {config : Configuration}
    (h : construct fuel affinity config pu = .ok m) : m.maxConcurrency = config.maxConcurrency := by
  cases affinity with
  | none =>
    cases h
    rfl
  | compact =>
    unfold construct at h
    cases hst : compact fuel pu (nodes config pu) config.maxConcurrency with
    | error e => simp only [hst] at h; cases h
    | ok st =>
      simp only [hst] at h
      rw [maxConcurrency_of_placePartitions h]
      refine foldlM_range_ok (P := fun _ st => st.manager.maxConcurrency = config.maxConcurrency)
        rfl (fun i _ s t hs hstep => ?_) hst
      unfold compactStep at hstep
      cases hskip : skipFull pu fuel s.j s.node with
      | error e => rw [hskip] at hstep; cases hstep
      | ok r =>
        rw [hskip] at hstep
        cases hstep
        exact hs
  | scatter =>
    unfold construct at h
    cases hst : scatter fuel pu (nodes config pu) config.maxConcurrency with
    | error e => simp only [hst] at h; cases h
    | ok st =>
      simp only [hst] at h
      rw [maxConcurrency_of_placePartitions h]
      refine foldlM_range_ok (P := fun _ st => st.manager.maxConcurrency = config.maxConcurrency)
        rfl (fun i _ s t hs hstep => ?_) hst
      have hcount : totalPuCount pu ≠ 0 := by
        intro hcount
        unfold scatterStep at hstep
        rw [if_pos hcount] at hstep
        cases hstep
      have hrenew : (s.renew pu i).manager = s.manager := by
        unfold ScatterState.renew
        split <;> rfl
      rw [scatterStep_eq hcount] at hstep
      cases hskip : skipEmpty (s.renew pu i).remains fuel (s.renew pu i).node with
      | error e => rw [hskip] at hstep; cases hstep
      | ok k =>
        rw [hskip] at hstep
        cases hstep
        rw [← hs, ← hrenew]
        rfl

/-- Where a constructor is known to return: with no affinity, or for some worker, on nodes
with units that are counted right. -/
def Returns (affinity : AffinityMode) (config : Configuration) (pu : List ℕ) : Prop :=
  affinity = .none ∨
    0 < pu.sum ∧ 1 ≤ config.maxConcurrency ∧ CountsRounds affinity config pu

theorem places_of_counts {affinity : AffinityMode} {config : Configuration} (hsum : 0 < pu.sum)
    (hthreads : 1 ≤ config.maxConcurrency) (haffinity : affinity ≠ .none)
    (h : CountsRounds affinity config pu) : Places affinity config pu := by
  cases affinity with
  | none => exact absurd rfl haffinity
  | compact => exact places_compact hsum hthreads
  | scatter =>
    rcases h with h | h
    · cases h
    · exact places_scatter hsum hthreads (resetsInTime hsum hthreads h)

/-- What the constructor returns can be shown to the scheduler. -/
theorem exists_view {affinity : AffinityMode} {config : Configuration}
    (h : Returns affinity config pu) :
    ∃ fuel m lm, construct fuel affinity config pu = .ok m ∧ m.Shows lm := by
  by_cases haffinity : affinity = .none
  · subst haffinity
    have hnode : ∀ w : WorkerId, (0 : NodeId) < 1 := fun _ => Nat.one_pos
    exact ⟨0, _, ⟨config.maxConcurrency, 1, fun _ => 0, hnode⟩, rfl, rfl, rfl, fun _ _ => rfl⟩
  · obtain ⟨hsum, hthreads, hcounts⟩ := h.resolve_left haffinity
    obtain ⟨fuel, m, hconstruct, hbalanced⟩ := places_of_counts hsum hthreads haffinity hcounts
    obtain ⟨lm, hshows⟩ :=
      hbalanced.exists_view (maxConcurrency_of_construct hconstruct) hthreads
    exact ⟨fuel, m, lm, hconstruct, hshows⟩

/-- A sum of zero is divided by at the first worker. -/
theorem scatter_zero {config : Configuration} (hthreads : 1 ≤ config.maxConcurrency)
    (hcount : totalPuCount pu = 0) : ¬ Places .scatter config pu := by
  rintro ⟨fuel, m, hconstruct, _⟩
  unfold construct at hconstruct
  cases hst : scatter fuel pu (nodes config pu) config.maxConcurrency with
  | error e => simp only [hst] at hconstruct; cases hconstruct
  | ok st =>
    obtain ⟨u, v, _, hstep⟩ := step_of_foldlM_range (Nat.lt_of_lt_of_le Nat.zero_lt_one hthreads) hst
    unfold scatterStep at hstep
    rw [if_pos hcount] at hstep
    cases hstep

/-- With too large a sum the round is not renewed in time, and the inner loop is endless. -/
theorem scatter_endless {config : Configuration} (hsum : 0 < pu.sum)
    (hcount : pu.sum < totalPuCount pu) (hthreads : pu.sum < config.maxConcurrency) :
    ¬ Places .scatter config pu := by
  rintro ⟨fuel, m, hconstruct, _⟩
  unfold construct at hconstruct
  cases hst : scatter fuel pu (nodes config pu) config.maxConcurrency with
  | error e => simp only [hst] at hconstruct; cases hconstruct
  | ok st =>
    obtain ⟨u, v, hinit, hstep⟩ := step_of_foldlM_range hthreads hst
    have hreset : ResetsInTime pu pu.sum := by
      refine ⟨by omega, fun i hi => ?_⟩
      rw [Nat.mod_eq_of_lt (Nat.lt_trans hi hcount), Nat.mod_eq_of_lt hi]
    obtain ⟨round, hhead, hnonempty⟩ := scatter_ok hsum hreset hinit
    have hfull : round.length = pu.sum := by
      obtain ⟨q, hlength, _, _⟩ := hhead.filling.rounds.blocks
      have hpos := List.length_pos_iff.mpr (hnonempty (Nat.ne_of_gt hsum))
      have hle := hhead.filling.rounds.length_le
      rw [total_units, hhead.length] at hlength
      rw [total_units] at hle
      cases q with
      | zero => omega
      | succ q =>
        rw [Nat.succ_mul] at hlength
        omega
    have hrenew : u.renew pu pu.sum = u := by
      unfold ScatterState.renew
      rw [Nat.mod_eq_of_lt hcount, if_neg (Nat.ne_of_gt hsum)]
    have hempty : ∀ n < u.remains.length, u.remains.getD n 0 = 0 := by
      intro n hn
      rw [hhead.remains_length] at hn
      have hround := hhead.filling.rounds.full (by rw [total_units, hfull]) n hn
      have hunits := hhead.units_eq n hn
      omega
    rw [scatterStep_eq (Nat.ne_zero_of_lt hcount), hrenew,
      skipEmpty_endless hempty fuel (hhead.remains_length.symm ▸ hhead.node_lt)] at hstep
    cases hstep

/-- The placement is right where the rounds are counted right; where the sum comes out as zero
or too large, only there. -/
theorem placement_iff {affinity : AffinityMode} {config : Configuration} (hsum : 0 < pu.sum)
    (hthreads : 1 ≤ config.maxConcurrency) (haffinity : affinity ≠ .none) :
    (CountsRounds affinity config pu → Places affinity config pu) ∧
      (totalPuCount pu = 0 ∨ pu.sum ≤ totalPuCount pu →
        Places affinity config pu → CountsRounds affinity config pu) := by
  refine ⟨places_of_counts hsum hthreads haffinity, fun hcount hplaces => ?_⟩
  cases affinity with
  | none => exact absurd rfl haffinity
  | compact => exact Or.inl rfl
  | scatter =>
    rcases hcount with hzero | hle
    · exact absurd hplaces (scatter_zero hthreads hzero)
    · rcases Nat.eq_or_lt_of_le hle with heq | hlt
      · exact Or.inr (Or.inl heq.symm)
      · refine Or.inr (Or.inr ?_)
        rw [Nat.min_eq_left hle]
        exact Nat.le_of_not_lt fun hmore => scatter_endless hsum hlt hmore hplaces

theorem placement_iff_uneven : Places .scatter ⟨7, 3⟩ [2, 0, 3] :=
  (@placement_iff [2, 0, 3] .scatter ⟨7, 3⟩ (by decide) (by decide) nofun).1
    (Or.inr (Or.inl rfl))

/-- Four nodes of `2 ^ 30` units: the sum wraps to zero, and the first worker divides by it. -/
theorem not_always_places : ¬ ∀ affinity config pu, 0 < pu.sum →
    1 ≤ config.maxConcurrency → affinity ≠ .none → Places affinity config pu := by
  intro h
  have hplaces := h .scatter ⟨1, 1⟩ [2 ^ 30, 2 ^ 30, 2 ^ 30, 2 ^ 30] (by decide) (by decide) nofun
  exact scatter_zero (by decide) rfl hplaces

end Scatter

end M3bp.WorkerPlacement
