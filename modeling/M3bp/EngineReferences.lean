import M3bp.EnginePrograms
import M3bp.EngineRelease

/-!
References are handed on. An operation refers to what was referred to before it, or to the
object that it allocates, so whatever is referred to has been allocated.
-/
namespace M3bp.Engine

open SchedulerCalls Transition

variable {n : ℕ}

/-- Every reference in the state is one of `P`. -/
def Refers (P : Object → Prop) : State n → Prop :=
  Throughout (fun op => ∀ o ∈ op.references, P o) (fun c => ∀ o ∈ c.references, P o)
    (fun x => ∀ o ∈ x.references, P o) P

def Effect.Refers (P : Object → Prop) : Effect → Prop :=
  Effect.Throughout (fun op => ∀ o ∈ op.references, P o) (fun c => ∀ o ∈ c.references, P o)
    (fun x => ∀ o ∈ x.references, P o) P

section References

variable {g : LogicalGraph} {lm : LocalityManager} {s s' : State n} {w : Fin n} {op : Op}
  {e : Effect} {P : Object → Prop}

theorem mem_local_references {x : Local} {o : Object} : o ∈ x.references ↔
    o ∈ x.inputs ∨ o ∈ x.partitionedBuffers ∨ some o ∈ x.broadcastInputs ∨
      ∃ row ∈ x.partitionedPool, some o ∈ row := by
  simp [Local.references]

theorem references_commitFragment (g : LogicalGraph) (x : PortKey) (p : ℕ) (o : Object) :
    ∀ op ∈ commitFragment g x p o, op.references = [o] := by
  intro op hop
  obtain ⟨y, -, rfl⟩ := List.mem_map.mp hop
  rfl

theorem references_body (g : LogicalGraph) (s : State n) (t : TaskId) (c : Command) :
    ∀ op ∈ body g s t c, ∀ o ∈ op.references,
      o ∈ c.references ∨ o ∈ (s.locals c.owner).references := by
  intro op hop o ho
  cases c with
  | gather l =>
    rw [List.mem_singleton.mp hop] at ho
    exact Or.inr (mem_local_references.mpr (Or.inl ho))
  | oneToOneRun l input port =>
    left
    simp only [body, List.mem_cons, List.not_mem_nil, or_false] at hop
    rcases hop with rfl | rfl | rfl | rfl <;> first
      | exact ho
      | cases ho
  | scatterGatherRun l inputs p =>
    left
    simp only [body, List.mem_cons, List.not_mem_nil, or_false] at hop
    rcases hop with rfl | rfl | rfl | rfl <;> try cases ho
    obtain ⟨pair, hpair, rfl⟩ := List.mem_map.mp ho
    obtain ⟨⟨input, port⟩, hinput, hsome⟩ := List.mem_filterMap.mp hpair
    obtain ⟨o, rfl, rfl⟩ := Option.map_eq_some_iff.mp hsome
    have hmem : some o ∈ inputs := List.fst_mem_of_mem_zipIdx hinput
    simpa [Command.references] using hmem
  | shufflePartition l source =>
    left
    rw [List.mem_singleton.mp hop] at ho
    exact ho
  | empty l place => cases hop
  | processBarrier l =>
    obtain ⟨i, -, rfl⟩ := List.mem_map.mp hop
    cases ho
  | shuffleBarrier l =>
    simp only [body] at hop
    split at hop
    · rcases List.mem_append.mp hop with hop | hop
      · obtain ⟨i, -, rfl⟩ := List.mem_map.mp hop
        cases ho
      · rw [List.mem_singleton.mp hop] at ho
        cases ho
    · cases hop
  | _ =>
    simp only [body, List.mem_cons, List.not_mem_nil, or_false] at hop
    rcases hop with rfl | rfl | rfl | rfl | rfl <;> cases ho

theorem Refers.lockedBy (h : Refers P s) {c : Command} (hc : ∀ o ∈ c.references, P o) :
    ∀ o ∈ lockedBy s c, P o := by
  intro o ho
  have hbroadcast : ∀ l, o ∈ (s.locals l).broadcastInputs.filterMap id → P o := by
    intro l ho
    have hmem : some o ∈ (s.locals l).broadcastInputs := by simpa using ho
    exact h.locals l o (mem_local_references.mpr (Or.inr (Or.inr (Or.inl hmem))))
  unfold Engine.lockedBy at ho
  split at ho
  · exact h.locals _ o (mem_local_references.mpr (Or.inl ho))
  · exact hbroadcast _ ho
  · exact hbroadcast _ ho
  · split at ho
    · rcases List.mem_append.mp ho with ho | ho
      · exact hbroadcast _ ho
      · exact hc o ho
    · exact hc o ho

theorem references_setBroadcast {x : Local} {q : ℕ} {o o' : Object}
    (h : o' ∈ ({ x with broadcastInputs := x.broadcastInputs.set q (some o) } : Local).references) :
    o' ∈ x.references ∨ o' = o := by
  rw [mem_local_references] at h ⊢
  rcases h with h | h | h | h
  · exact Or.inl (Or.inl h)
  · exact Or.inl (Or.inr (Or.inl h))
  · rcases List.mem_or_eq_of_mem_set h with h | heq
    · exact Or.inl (Or.inr (Or.inr (Or.inl h)))
    · exact Or.inr (Option.some.inj heq)
  · exact Or.inl (Or.inr (Or.inr (Or.inr h)))

theorem references_setPool {x : Local} {pool : List (List (Option Object))} {o' : Object}
    (h : o' ∈ ({ x with partitionedPool := pool } : Local).references) :
    o' ∈ x.references ∨ ∃ row ∈ pool, some o' ∈ row := by
  rw [mem_local_references] at h ⊢
  rcases h with h | h | h | h
  · exact Or.inl (Or.inl h)
  · exact Or.inl (Or.inr (Or.inl h))
  · exact Or.inl (Or.inr (Or.inr (Or.inl h)))
  · exact Or.inr h

theorem mem_pool_of_modify {pool : List (List (Option Object))} {p q : ℕ} {o o' : Object}
    (h : ∃ row ∈ pool.modify p fun row => row.set q (some o), some o' ∈ row) :
    (∃ row ∈ pool, some o' ∈ row) ∨ o' = o := by
  obtain ⟨row, hrow, ho'⟩ := h
  obtain ⟨i, hi⟩ := List.mem_iff_getElem?.mp hrow
  rw [List.getElem?_modify] at hi
  obtain ⟨row', hrow', rfl⟩ := Option.map_eq_some_iff.mp hi
  have hmem : row' ∈ pool := List.mem_of_getElem? hrow'
  split at ho'
  · rcases List.mem_or_eq_of_mem_set ho' with ho' | heq
    · exact Or.inl ⟨row', hmem, ho'⟩
    · exact Or.inr (Option.some.inj heq)
  · exact Or.inl ⟨row', hmem, ho'⟩

theorem refers_none : ({} : Effect).Refers P := ⟨nofun, nofun, nofun, nofun, nofun⟩

theorem refers_next {next : List Op} {allocated : List ℕ} {notes : List Note}
    (h : ∀ op ∈ next, ∀ o ∈ op.references, P o) :
    ({ next := next, allocated := allocated, notes := notes } : Effect).Refers P :=
  ⟨h, nofun, nofun, nofun, nofun⟩

theorem refers_change {l : ℕ} {y : Local} {next : List Op} {allocated : List ℕ} {notes : List Note}
    (hy : ∀ o ∈ y.references, P o) (hnext : ∀ op ∈ next, ∀ o ∈ op.references, P o) :
    ({ change := some (l, y), next := next, allocated := allocated, notes := notes } :
      Effect).Refers P := by
  refine ⟨hnext, nofun, nofun, fun l' y' heq => ?_, nofun⟩
  cases heq
  exact hy

/-- A fragment that is received is stored, or a task is created for it. -/
theorem refers_receiveFragment (h : Refers P s) (x : PortKey) (p : ℕ) {o : Object} (ho : P o) :
    (receiveFragment g s x p o).Refers P := by
  have hspawn : ∀ c : Command, c.references = [o] →
      ({ next := [.spawn c] } : Effect).Refers P := by
    intro c hc
    apply refers_next
    intro op hop o' ho'
    rw [List.mem_singleton.mp hop] at ho'
    change o' ∈ c.references at ho'
    rw [hc] at ho'
    exact List.mem_singleton.mp ho' ▸ ho
  have hprocess : ∀ proc nonBroadcast, nonBroadcast.Refers P →
      (receiveProcessFragment s proc x o nonBroadcast).Refers P := by
    intro proc nonBroadcast hother
    unfold receiveProcessFragment
    split
    · refine refers_change (fun o' ho' => ?_) nofun
      rcases references_setBroadcast ho' with hold | rfl
      · exact h.locals x.1 o' hold
      · exact ho
    · exact hother
  unfold receiveFragment
  cases g.kindOf x.1 with
  | none => exact refers_none
  | some kind =>
    cases kind with
    | inputProcess proc workerCount => exact hprocess proc {} refers_none
    | oneToOneProcess proc workerCount => exact hprocess proc _ (hspawn _ rfl)
    | scatterGatherProcess proc workerCount count =>
      apply hprocess proc
      refine refers_change (fun o' ho' => ?_) fun op hop o' ho' => ?_
      · rcases references_setPool ho' with hold | hpool
        · exact h.locals x.1 o' hold
        · rcases mem_pool_of_modify hpool with hold | rfl
          · exact h.locals x.1 o' (mem_local_references.mpr (Or.inr (Or.inr (Or.inr hold))))
          · exact ho
      · rw [List.mem_singleton.mp hop] at ho'
        cases ho'
    | shuffle count => exact hspawn _ rfl
    | gather =>
      refine refers_change (fun o' ho' => ?_) nofun
      have hold := h.locals x.1 o'
      rw [mem_local_references] at ho' hold
      rcases ho' with ho' | ho'
      · rcases List.mem_append.mp ho' with ho' | ho'
        · exact hold (Or.inl ho')
        · exact List.mem_singleton.mp ho' ▸ ho
      · exact hold (Or.inr ho')
    | valueSort comparator => exact hspawn _ rfl

/-- An operation refers to what has been referred to, and to the object that it allocates. -/
theorem Performs.refers (heffect : Performs g s w op e) (h : Refers P s)
    (hop : op ∈ (s.workers w).program) (hnew : e.allocated ≠ [] → P s.nextObject) :
    e.Refers P := by
  have hold := h.operations w op hop
  cases heffect with
  | allocate l callback size =>
    refine Effect.throughout_buffers (fun op hop o ho => ?_) fun o ho => ?_
    · rw [List.mem_singleton.mp hop] at ho
      cases ho
    · rcases List.mem_append.mp ho with ho | ho
      · exact h.buffers w o ho
      · exact List.mem_singleton.mp ho ▸ hnew (List.cons_ne_nil _ _)
  | flush l callback port recordCount o' hport hbuffer =>
    refine Effect.throughout_buffers (fun op hop o ho => ?_) fun o ho => ?_
    · rcases List.mem_append.mp hop with hop | hop
      · split at hop
        · rw [references_commitFragment g _ _ _ op hop] at ho
          exact List.mem_singleton.mp ho ▸ h.buffers w o' hbuffer
        · cases hop
      · rw [List.mem_singleton.mp hop] at ho
        cases ho
    · exact h.buffers w o (List.mem_of_mem_erase ho)
  | setTaskCount l count hinput =>
    refine refers_change (h.locals l) fun op hop o ho => ?_
    rw [List.mem_singleton.mp hop] at ho
    cases ho
  | step op choice hoption =>
    have hplain : ∀ next : List Op, (∀ op ∈ next, op.references = []) →
        ∀ op ∈ next, ∀ o ∈ op.references, P o := by
      intro next hnil op hop o ho
      rw [hnil op hop] at ho
      cases ho
    have hcommit : ∀ producer p, P s.nextObject →
        ∀ op ∈ commitFragment g producer p s.nextObject, ∀ o ∈ op.references, P o := by
      intro producer p hobject op hop o ho
      rw [references_commitFragment g _ _ _ op hop] at ho
      exact List.mem_singleton.mp ho ▸ hobject
    have hstored : ∀ l (y : Local), (∀ o ∈ y.references, o ∈ (s.locals l).references) →
        ∀ o ∈ y.references, P o := fun l y hsub o ho => h.locals l o (hsub o ho)
    have hcommits : ∀ tasks : List TaskId,
        ∀ op ∈ tasks.map Op.commit, ∀ o ∈ op.references, P o := by
      intro tasks
      apply hplain
      intro op hop
      obtain ⟨t, -, rfl⟩ := List.mem_map.mp hop
      rfl
    cases op with
    | prepare t c =>
      refine Effect.throughout_held (fun op hop o ho => ?_) (h.lockedBy hold)
      rcases references_body g s t c op hop o ho with hown | hlocal
      · exact hold o hown
      · exact h.locals _ o hlocal
    | globalInitialize l =>
      simp only [effect]
      split
      · exact refers_none
      · exact refers_next (hplain _ (by simp [Op.references]))
    | markGlobalInitialized l | markThreadLocalInitialized l =>
      exact refers_change (h.locals l) (List.forall_mem_nil _)
    | afterGlobalInitialize l =>
      simp only [effect]
      split
      · apply refers_next
        apply hplain
        intro op hop
        obtain ⟨i, -, rfl⟩ := List.mem_map.mp hop
        rfl
      · exact refers_none
    | createFinalizer l worker =>
      simp only [effect]
      split
      · exact refers_next (hplain _ (by simp [Op.references, Command.references]))
      · exact refers_none
    | globalFinalize l =>
      simp only [effect]
      split
      · exact refers_change (h.locals l) (hplain _ (by simp [Op.references]))
      · exact refers_none
    | clearBroadcastInputs l =>
      refine refers_change (hstored l _ fun o ho => ?_) (List.forall_mem_nil _)
      rw [mem_local_references] at ho ⊢
      rcases ho with ho | ho | ho | ho
      · exact Or.inl ho
      · exact Or.inr (Or.inl ho)
      · cases ho
      · exact Or.inr (Or.inr (Or.inr ho))
    | threadLocalInitialize l =>
      simp only [effect]
      split
      · exact refers_none
      · exact refers_next (hplain _ (by simp [Op.references]))
    | threadLocalFinalize l =>
      simp only [effect]
      split
      · exact refers_change (h.locals l) (hplain _ (by simp [Op.references]))
      · exact refers_none
    | call l callback inputs => exact refers_next (hplain _ (by simp [Op.references]))
    | inCallback l callback =>
      exact Effect.throughout_buffers (List.forall_mem_nil _) (List.forall_mem_nil _)
    | release => exact Effect.throughout_held (List.forall_mem_nil _) (List.forall_mem_nil _)
    | notifyCompletion l t => exact refers_change (h.locals l) (hcommits _)
    | partitionFragment l o =>
      refine refers_change (fun o ho => ?_) (List.forall_mem_nil _)
      have hlocal := h.locals l o
      rw [mem_local_references] at ho hlocal
      rcases ho with ho | ho | ho
      · exact hlocal (Or.inl ho)
      · rcases List.mem_append.mp ho with ho | ho
        · exact hlocal (Or.inr (Or.inl ho))
        · exact List.mem_singleton.mp ho ▸ hnew (List.cons_ne_nil _ _)
      · exact hlocal (Or.inr (Or.inr ho))
    | createSortTask l p =>
      apply refers_next
      intro op hop o ho
      rw [List.mem_singleton.mp hop] at ho
      exact h.locals l o (mem_local_references.mpr (Or.inr (Or.inl ho)))
    | clearPartitionedBuffers l =>
      refine refers_change (hstored l _ fun o ho => ?_) (List.forall_mem_nil _)
      rw [mem_local_references] at ho ⊢
      rcases ho with ho | ho | ho
      · exact Or.inl ho
      · cases ho
      · exact Or.inr (Or.inr ho)
    | sortRecords l p => exact refers_next (hcommit _ _ (hnew (List.cons_ne_nil _ _)))
    | sortValues l p => exact refers_next (hcommit _ _ (hnew (List.cons_ne_nil _ _)))
    | runGather l inputs =>
      apply refers_next
      intro op hop
      rcases List.mem_append.mp hop with hop | hop
      · exact hcommit _ _ (hnew (List.cons_ne_nil _ _)) op hop
      · rw [List.mem_singleton.mp hop]
        exact List.forall_mem_nil _
    | clearInputs l =>
      refine refers_change (hstored l _ fun o ho => ?_) (List.forall_mem_nil _)
      rw [mem_local_references] at ho ⊢
      rcases ho with ho | ho
      · cases ho
      · exact Or.inr ho
    | deliver x p o => exact refers_receiveFragment h x p (hold o (List.mem_singleton.mpr rfl))
    | countDown l p =>
      refine refers_change (h.locals l) (hplain _ fun op hop => ?_)
      split at hop
      · rw [List.mem_singleton.mp hop]
        rfl
      · cases hop
    | createPartitionRun l p =>
      have hrow : ∀ row ∈ (s.locals l).partitionedPool, ∀ o, some o ∈ row → P o :=
        fun row hrow o ho =>
          h.locals l o (mem_local_references.mpr (Or.inr (Or.inr (Or.inr ⟨row, hrow, ho⟩))))
      refine refers_change (fun o ho => ?_) fun op hop o ho => ?_
      · rcases references_setPool ho with ho | ⟨row, hset, ho⟩
        · exact h.locals l o ho
        · rcases List.mem_or_eq_of_mem_set hset with hset | rfl
          · exact hrow row hset o ho
          · cases ho
      · rw [List.mem_singleton.mp hop] at ho
        have hmem : some o ∈ ((s.locals l).partitionedPool[p]?).getD [] := by
          simpa [Op.references, Command.references] using ho
        cases hget : (s.locals l).partitionedPool[p]? with
        | none =>
          rw [hget] at hmem
          cases hmem
        | some row =>
          rw [hget] at hmem
          exact hrow row (List.mem_of_getElem? hget) o hmem
    | spawn c =>
      refine Effect.throughout_action (fun op hop o ho => ?_) fun c' hc' => ?_
      · rw [List.mem_singleton.mp hop] at ho
        cases ho
      · rw [List.mem_singleton.mp hc']
        exact hold
    | link t c dependencies =>
      cases dependencies with
      | nil =>
        simp only [effect, commitTask]
        split
        · exact refers_change (h.locals _) (hcommits _)
        · exact refers_next (hcommits [t])
      | cons d rest =>
        refine Effect.throughout_action (fun op hop o ho => ?_) (List.forall_mem_nil _)
        rw [List.mem_singleton.mp hop] at ho
        cases ho
    | commit t => exact Effect.throughout_action (List.forall_mem_nil _) (List.forall_mem_nil _)

theorem Refers.mono {Q : Object → Prop} (h : Refers P s) (hsub : ∀ o, P o → Q o) : Refers Q s :=
  ⟨fun w op hop o ho => hsub o (h.operations w op hop o ho), fun w o ho => hsub o (h.held w o ho),
    fun w o ho => hsub o (h.buffers w o ho), fun l o ho => hsub o (h.locals l o ho),
    fun c hc o ho => hsub o (h.commands c hc o ho)⟩

/-- What is referred to has been allocated. -/
def Allocated (s : State n) : Prop := Refers (· < s.objectSizes.length) s

theorem allocated_start (draws : TaskId → WorkerId) :
    Allocated (State.start g (Plan.setUp g lm draws) : State n) := by
  apply throughout_start
  · intro kind l place o ho
    cases kind <;> cases place <;> cases ho
  · intro l o ho
    rw [mem_local_references] at ho
    cases hkind : (g.kindOf l).getD .gather with
    | scatterGatherProcess proc workerCount count => simp [Local.create, hkind] at ho
    | _ => simp [Local.create, hkind] at ho

theorem step_allocated (h : Allocated s) (hstep : Step g lm s s') : Allocated s' := by
  have hgrown : s.objectSizes.length ≤ s'.objectSizes.length := by
    cases hstep with
    | perform hrunning hcall hprogram heffect =>
      exact (List.sublist_append_left _ _).length_le
    | _ => exact le_refl _
  have hold : Refers (· < s'.objectSizes.length) s :=
    Refers.mono h fun o ho => Nat.lt_of_lt_of_le ho hgrown
  refine step_throughout hold (fun _ _ hc => hc) hstep ?_
  rintro w op rest e hprogram heffect rfl
  refine heffect.refers hold (mem_program hprogram) fun hnew => ?_
  have hpos := List.length_pos_iff.mpr hnew
  show s.objectSizes.length < (s.objectSizes ++ e.allocated).length
  rw [List.length_append]
  exact Nat.lt_add_of_pos_right hpos

end References

end M3bp.Engine
