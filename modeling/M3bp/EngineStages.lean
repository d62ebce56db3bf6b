import M3bp.EngineCancellation

/-!
The callbacks of processors in the programs of the workers. Of a program only the stages are
looked at, in which a callback is decided on, entered, in progress or noted as done. A task
that runs goes through the course of its command.
-/
namespace M3bp.Engine

open SchedulerCalls Transition

variable {n : ℕ}

/-- `marking` sets the flag of an initialization that has come to its end. -/
inductive Stage
  | deciding (callback : Callback)
  | entering (callback : Callback)
  | inside (callback : Callback)
  | marking (callback : Callback)
  deriving DecidableEq, Repr

def Command.isRun : Command → Bool
  | inputRun .. | oneToOneRun .. | scatterGatherRun .. => true
  | _ => false

/-- The stages of a task that is about to run. -/
def Command.course : Command → List Stage
  | inputRun .. | oneToOneRun .. | scatterGatherRun .. =>
    [.deciding .threadLocalInitialize, .entering .run]
  | threadLocalFinalize .. => [.deciding .threadLocalFinalize]
  | globalInitialize _ => [.deciding .globalInitialize]
  | globalFinalize _ => [.deciding .globalFinalize]
  | _ => []

/-- The stages of an operation with the logical task that they belong to. -/
def Op.stages : Op → List (ℕ × Stage)
  | prepare _ c => c.course.map (c.owner, ·)
  | globalInitialize l => [(l, .deciding .globalInitialize)]
  | globalFinalize l => [(l, .deciding .globalFinalize)]
  | threadLocalInitialize l => [(l, .deciding .threadLocalInitialize)]
  | threadLocalFinalize l => [(l, .deciding .threadLocalFinalize)]
  | call l callback _ => [(l, .entering callback)]
  | inCallback l callback => [(l, .inside callback)]
  | markGlobalInitialized l => [(l, .marking .globalInitialize)]
  | markThreadLocalInitialized l => [(l, .marking .threadLocalInitialize)]
  | _ => []

def stagesOf (program : List Op) : List (ℕ × Stage) := program.flatMap Op.stages

@[simp] theorem stagesOf_nil : stagesOf [] = [] := rfl

@[simp] theorem stagesOf_cons (op : Op) (program : List Op) :
    stagesOf (op :: program) = op.stages ++ stagesOf program := rfl

@[simp] theorem stagesOf_append (program more : List Op) :
    stagesOf (program ++ more) = stagesOf program ++ stagesOf more := List.flatMap_append

theorem stagesOf_eq_nil {program : List Op} (h : ∀ op ∈ program, op.stages = []) :
    stagesOf program = [] := List.flatMap_eq_nil_iff.mpr h

/-- `m_global_initialized` and `m_thread_local_initialized`. -/
@[ext] structure Flags (n : ℕ) where
  global : Bool
  locals : Fin n → Bool

def Flags.setLocal (f : Flags n) (w : Fin n) (b : Bool) : Flags n :=
  { f with locals := Function.update f.locals w b }

def State.flags (s : State n) (l : ℕ) : Flags n :=
  { global := (s.locals l).globalInitialized
    locals := fun w => (s.locals l).threadLocalInitialized w }

/-- How a worker gets on from a stage: what the flags say, and what becomes of them. -/
inductive Turn (w : Fin n) : Stage → Flags n → List Stage → Flags n → Prop
  | skipInitialize {f : Flags n} : f.global = true → Turn w (.deciding .globalInitialize) f [] f
  | toInitialize {f : Flags n} : f.global = false →
      Turn w (.deciding .globalInitialize) f
        [.entering .globalInitialize, .marking .globalInitialize] f
  | markInitialized {f : Flags n} :
      Turn w (.marking .globalInitialize) f [] { f with global := true }
  | skipFinalize {f : Flags n} : f.global = false → Turn w (.deciding .globalFinalize) f [] f
  | finalize {f : Flags n} : f.global = true →
      Turn w (.deciding .globalFinalize) f [.entering .globalFinalize] { f with global := false }
  | skipThreadInitialize {f : Flags n} : f.locals w = true →
      Turn w (.deciding .threadLocalInitialize) f [] f
  | threadInitialize {f : Flags n} : f.locals w = false →
      Turn w (.deciding .threadLocalInitialize) f
        [.entering .threadLocalInitialize, .marking .threadLocalInitialize] f
  | markThreadInitialized {f : Flags n} :
      Turn w (.marking .threadLocalInitialize) f [] (f.setLocal w true)
  | skipThreadFinalize {f : Flags n} : f.locals w = false →
      Turn w (.deciding .threadLocalFinalize) f [] f
  | threadFinalize {f : Flags n} : f.locals w = true →
      Turn w (.deciding .threadLocalFinalize) f [.entering .threadLocalFinalize]
        (f.setLocal w false)
  | enter {f : Flags n} (callback : Callback) : Turn w (.entering callback) f [.inside callback] f
  | leave {f : Flags n} (callback : Callback) : Turn w (.inside callback) f [] f

/-- An effect that neither goes on to another stage nor changes a flag. -/
structure Effect.Quiet (s : State n) (op : Op) (e : Effect) : Prop where
  stages : stagesOf e.next = op.stages
  flags : ∀ l x, e.change = some (l, x) →
    x.globalInitialized = (s.locals l).globalInitialized ∧
      x.threadLocalInitialized = (s.locals l).threadLocalInitialized

section Steps

variable {g : LogicalGraph} {s : State n} {w : Fin n} {op : Op} {rest : List Op} {e : Effect}
  {l : ℕ}

theorem stages_commitFragment (g : LogicalGraph) (x : PortKey) (p : ℕ) (o : Object) :
    stagesOf (commitFragment g x p o) = [] := by
  apply stagesOf_eq_nil
  intro op hop
  obtain ⟨y, -, rfl⟩ := List.mem_map.mp hop
  rfl

theorem stages_body (g : LogicalGraph) (s : State n) (t : TaskId) (c : Command) :
    stagesOf (body g s t c) = c.course.map (c.owner, ·) := by
  have hmap : ∀ (xs : List ℕ) (f : ℕ → Op), (∀ x, (f x).stages = []) →
      stagesOf (xs.map f) = [] := by
    intro xs f hf
    apply stagesOf_eq_nil
    intro op hop
    obtain ⟨x, -, rfl⟩ := List.mem_map.mp hop
    exact hf x
  cases c with
  | processBarrier l => exact hmap _ _ fun _ => rfl
  | shuffleBarrier l =>
    simp only [body]
    split
    · rw [stagesOf_append, hmap _ _ fun _ => rfl]
      rfl
    · rfl
  | _ => rfl

theorem quiet_of_next {next : List Op} {action : Action} {allocated : List ℕ} {notes : List Note}
    {buffers : Option (List Object)} (hnext : stagesOf next = op.stages) :
    ({ next := next, action := action, allocated := allocated, notes := notes
       buffers := buffers } : Effect).Quiet s op :=
  ⟨hnext, fun _ _ hchange => by cases hchange⟩

theorem quiet_of_change {next : List Op} {l : ℕ} {x : Local} {allocated : List ℕ}
    {notes : List Note} (hnext : stagesOf next = op.stages)
    (hglobal : x.globalInitialized = (s.locals l).globalInitialized)
    (hlocals : x.threadLocalInitialized = (s.locals l).threadLocalInitialized) :
    ({ next := next, change := some (l, x), allocated := allocated, notes := notes } :
      Effect).Quiet s op := by
  refine ⟨hnext, fun l' x' hchange => ?_⟩
  cases hchange
  exact ⟨hglobal, hlocals⟩

theorem quiet_receiveFragment (g : LogicalGraph) (s : State n) (x : PortKey) (p : ℕ) (o : Object) :
    (receiveFragment g s x p o).Quiet s (.deliver x p o) := by
  unfold receiveFragment receiveProcessFragment
  dsimp only
  split
  · split
    · exact quiet_of_change rfl rfl rfl
    · exact quiet_of_next rfl
  · split
    · exact quiet_of_change rfl rfl rfl
    · exact quiet_of_next rfl
  · split
    · exact quiet_of_change rfl rfl rfl
    · exact quiet_of_change rfl rfl rfl
  · exact quiet_of_next rfl
  · exact quiet_of_change rfl rfl rfl
  · exact quiet_of_next rfl
  · exact quiet_of_next rfl

theorem stages_commits (tasks : List TaskId) : stagesOf (tasks.map Op.commit) = [] := by
  apply stagesOf_eq_nil
  intro op hop
  obtain ⟨u, -, rfl⟩ := List.mem_map.mp hop
  rfl

theorem quiet_commitTask (s : State n) (t : TaskId) (c : Command) :
    (commitTask s t c).Quiet s (.link t c []) := by
  unfold commitTask
  split
  · exact quiet_of_change (by rw [stages_commits]; rfl) rfl rfl
  · exact quiet_of_next rfl

theorem flags_apply_quiet (rest : List Op) (h : e.Quiet s op) (l : ℕ) :
    (s.apply w rest e).flags l = s.flags l := by
  rcases locals_apply s w rest e l with ⟨x, hchange, heq⟩ | heq
  · obtain ⟨hglobal, hlocals⟩ := h.flags l x hchange
    simp [State.flags, heq, hglobal, hlocals]
  · simp [State.flags, heq]

theorem flags_apply_none (s : State n) (w : Fin n) (rest : List Op) (h : e.change = none) (l : ℕ) :
    (s.apply w rest e).flags l = s.flags l := by
  simp [State.flags, State.apply, h]

theorem flags_apply_of_ne {x : Local} (rest : List Op) (h : e.change = some (l, x)) {l' : ℕ}
    (hl : l' ≠ l) : (s.apply w rest e).flags l' = s.flags l' := by
  simp [State.flags, State.apply, h, hl]

/-- The operations that take a worker from one stage to another. -/
structure Turns (s : State n) (w : Fin n) (op : Op) (rest : List Op) (e : Effect) (l : ℕ)
    (st : Stage) (more : List Stage) : Prop where
  stages : op.stages = [(l, st)]
  next : stagesOf e.next = more.map (l, ·)
  turn : Turn w st (s.flags l) more ((s.apply w rest e).flags l)
  others : ∀ l', l' ≠ l → (s.apply w rest e).flags l' = s.flags l'

theorem turns_of_none {st : Stage} {more : List Stage} (h : e.change = none)
    (hstages : op.stages = [(l, st)]) (hnext : stagesOf e.next = more.map (l, ·))
    (hturn : Turn w st (s.flags l) more (s.flags l)) : Turns s w op rest e l st more := by
  refine ⟨hstages, hnext, ?_, fun l' _ => flags_apply_none s w rest h l'⟩
  rw [flags_apply_none s w rest h]
  exact hturn

theorem turns_of_change {st : Stage} {more : List Stage} {x : Local} (h : e.change = some (l, x))
    (hstages : op.stages = [(l, st)]) (hnext : stagesOf e.next = more.map (l, ·))
    (hturn : Turn w st (s.flags l) more
      { global := x.globalInitialized, locals := fun w => x.threadLocalInitialized w }) :
    Turns s w op rest e l st more := by
  refine ⟨hstages, hnext, ?_, fun l' hl => flags_apply_of_ne rest h hl⟩
  have hflags : (s.apply w rest e).flags l =
      { global := x.globalInitialized, locals := fun w => x.threadLocalInitialized w } := by
    simp [State.flags, State.apply, h]
  rw [hflags]
  exact hturn

/-- A flag of a worker is one of the entries of the vector. -/
theorem setLocal_flags (s : State n) (l : ℕ) (w : Fin n) (b : Bool) :
    (s.flags l).setLocal w b =
      { global := (s.locals l).globalInitialized
        locals := fun v => Function.update (s.locals l).threadLocalInitialized w b v } := by
  refine Flags.ext rfl (funext fun v => ?_)
  by_cases hv : v = w
  · subst hv
    simp [Flags.setLocal]
  · have hne : (v : ℕ) ≠ w := fun heq => hv (Fin.ext heq)
    simp [Flags.setLocal, hv, hne, State.flags]

/-- Every operation is quiet, or it takes its worker to another stage. -/
theorem Performs.turn (h : Performs g s w op e) (rest : List Op) :
    e.Quiet s op ∨ ∃ l st more, Turns s w op rest e l st more := by
  cases h with
  | step op choice hoption =>
    cases op with
    | prepare t c => exact Or.inl ⟨stages_body g s t c, fun _ _ hchange => by cases hchange⟩
    | globalInitialize l =>
      right
      by_cases hflag : (s.locals l).globalInitialized = true
      · exact ⟨l, _, [], turns_of_none (by simp [effect, hflag]) rfl (by simp [effect, hflag])
          (.skipInitialize hflag)⟩
      · exact ⟨l, _, _, turns_of_none (by simp [effect, hflag]) rfl
          (by simp [effect, hflag, Op.stages]) (.toInitialize (Bool.eq_false_iff.mpr hflag))⟩
    | markGlobalInitialized l =>
      exact Or.inr ⟨l, _, [], turns_of_change rfl rfl rfl .markInitialized⟩
    | globalFinalize l =>
      right
      by_cases hflag : (s.locals l).globalInitialized = true
      · refine ⟨l, _, [.entering .globalFinalize], turns_of_change
          (x := { s.locals l with globalInitialized := false }) ?_ rfl ?_ (.finalize hflag)⟩
        · simp [effect, hflag]
        · simp [effect, hflag, Op.stages]
      · exact ⟨l, _, [], turns_of_none (by simp [effect, hflag]) rfl (by simp [effect, hflag])
          (.skipFinalize (Bool.eq_false_iff.mpr hflag))⟩
    | threadLocalInitialize l =>
      right
      by_cases hflag : (s.locals l).threadLocalInitialized w = true
      · exact ⟨l, _, [], turns_of_none (by simp [effect, hflag]) rfl (by simp [effect, hflag])
          (.skipThreadInitialize hflag)⟩
      · exact ⟨l, _, _, turns_of_none (by simp [effect, hflag]) rfl
          (by simp [effect, hflag, Op.stages]) (.threadInitialize (Bool.eq_false_iff.mpr hflag))⟩
    | markThreadLocalInitialized l =>
      refine Or.inr ⟨l, _, [], turns_of_change rfl rfl rfl ?_⟩
      have hturn := @Turn.markThreadInitialized n w (s.flags l)
      rw [setLocal_flags] at hturn
      exact hturn
    | threadLocalFinalize l =>
      right
      by_cases hflag : (s.locals l).threadLocalInitialized w = true
      · refine ⟨l, _, [.entering .threadLocalFinalize], turns_of_change
          (x := { s.locals l with
            threadLocalInitialized :=
              Function.update (s.locals l).threadLocalInitialized w false }) ?_ rfl ?_ ?_⟩
        · simp [effect, hflag]
        · simp [effect, hflag, Op.stages]
        · have hturn := @Turn.threadFinalize n w (s.flags l) hflag
          rw [setLocal_flags] at hturn
          exact hturn
      · exact ⟨l, _, [], turns_of_none (by simp [effect, hflag]) rfl (by simp [effect, hflag])
          (.skipThreadFinalize (Bool.eq_false_iff.mpr hflag))⟩
    | call l callback inputs =>
      exact Or.inr ⟨l, _, _, turns_of_none rfl rfl rfl (.enter callback)⟩
    | inCallback l callback =>
      exact Or.inr ⟨l, _, [], turns_of_none rfl rfl rfl (.leave callback)⟩
    | deliver x p o => exact Or.inl (quiet_receiveFragment g s x p o)
    | link t c deps =>
      left
      cases deps with
      | nil => exact quiet_commitTask s t c
      | cons d deps => exact quiet_of_next rfl
    | afterGlobalInitialize l =>
      left
      simp only [effect]
      split
      · refine quiet_of_next (stagesOf_eq_nil fun op hop => ?_)
        obtain ⟨i, -, rfl⟩ := List.mem_map.mp hop
        rfl
      · exact quiet_of_next rfl
    | createFinalizer l worker =>
      left
      simp only [effect]
      split
      · exact quiet_of_next rfl
      · exact quiet_of_next rfl
    | sortRecords l p => exact Or.inl (quiet_of_next (stages_commitFragment g _ p _))
    | sortValues l p => exact Or.inl (quiet_of_next (stages_commitFragment g _ p _))
    | runGather l inputs =>
      left
      refine quiet_of_next ?_
      rw [stagesOf_append, stages_commitFragment]
      rfl
    | notifyCompletion l t => exact Or.inl (quiet_of_change (stages_commits _) rfl rfl)
    | countDown l p =>
      left
      refine quiet_of_change ?_ rfl rfl
      split
      · rfl
      · rfl
    | clearBroadcastInputs l | partitionFragment l o | clearPartitionedBuffers l
    | clearInputs l | createPartitionRun l p => exact Or.inl (quiet_of_change rfl rfl rfl)
    | release => exact Or.inl ⟨rfl, fun _ _ hchange => by cases hchange⟩
    | createSortTask l p | spawn c | commit t => exact Or.inl (quiet_of_next rfl)
  | allocate l callback size => exact Or.inl (quiet_of_next rfl)
  | flush l callback port recordCount o hport hbuffer =>
    left
    refine quiet_of_next ?_
    rw [stagesOf_append]
    split
    · rw [stages_commitFragment]
      rfl
    · rfl
  | setTaskCount l count hinput => exact Or.inl (quiet_of_change rfl rfl rfl)

end Steps

/-- The lists of stages that a task goes through. -/
inductive Course : Command → List Stage → Prop
  | start (c : Command) : Course c c.course
  | done (c : Command) : Course c []
  | toInitialize {c : Command} (hrun : c.isRun = true) :
      Course c [.entering .threadLocalInitialize, .marking .threadLocalInitialize, .entering .run]
  | initializing {c : Command} (hrun : c.isRun = true) :
      Course c [.inside .threadLocalInitialize, .marking .threadLocalInitialize, .entering .run]
  | initialized {c : Command} (hrun : c.isRun = true) :
      Course c [.marking .threadLocalInitialize, .entering .run]
  | run {c : Command} (hrun : c.isRun = true) : Course c [.entering .run]
  | running {c : Command} (hrun : c.isRun = true) : Course c [.inside .run]
  | finalize (l : ℕ) (worker : WorkerId) :
      Course (.threadLocalFinalize l worker) [.entering .threadLocalFinalize]
  | finalizing (l : ℕ) (worker : WorkerId) :
      Course (.threadLocalFinalize l worker) [.inside .threadLocalFinalize]
  | globalInitialize (l : ℕ) :
      Course (.globalInitialize l) [.entering .globalInitialize, .marking .globalInitialize]
  | globalInitializing (l : ℕ) :
      Course (.globalInitialize l) [.inside .globalInitialize, .marking .globalInitialize]
  | globalInitialized (l : ℕ) : Course (.globalInitialize l) [.marking .globalInitialize]
  | globalFinalize (l : ℕ) : Course (.globalFinalize l) [.entering .globalFinalize]
  | globalFinalizing (l : ℕ) : Course (.globalFinalize l) [.inside .globalFinalize]

/-- A command without a callback has no stages. -/
theorem Course.eq_nil {c : Command} {stages : List Stage} (h : Course c stages)
    (hempty : c.course = []) : stages = [] := by
  have hrun : ¬ c.isRun = true := by
    cases c <;> simp [Command.isRun, Command.course] at hempty ⊢
  cases h <;> first
    | exact hempty
    | rfl
    | exact absurd ‹_› hrun
    | cases hempty

theorem Course.turn {c : Command} {st : Stage} {stages more : List Stage} {w : Fin n}
    {f f' : Flags n} (h : Course c (st :: stages)) (hturn : Turn w st f more f') :
    Course c (more ++ stages) := by
  generalize hlist : st :: stages = all at h
  cases h with
  | start =>
    cases c <;> simp only [Command.course, List.cons.injEq, reduceCtorEq] at hlist <;>
      obtain ⟨rfl, rfl⟩ := hlist <;> cases hturn
    all_goals first
      | exact .done _
      | exact .run rfl
      | exact .toInitialize rfl
      | exact .finalize _ _
      | exact .globalInitialize _
      | exact .globalFinalize _
  | done => cases hlist
  | toInitialize hrun =>
    obtain ⟨rfl, rfl⟩ := List.cons.inj hlist
    cases hturn
    exact .initializing hrun
  | initializing hrun =>
    obtain ⟨rfl, rfl⟩ := List.cons.inj hlist
    cases hturn
    exact .initialized hrun
  | initialized hrun =>
    obtain ⟨rfl, rfl⟩ := List.cons.inj hlist
    cases hturn
    exact .run hrun
  | run hrun =>
    obtain ⟨rfl, rfl⟩ := List.cons.inj hlist
    cases hturn
    exact .running hrun
  | running hrun =>
    obtain ⟨rfl, rfl⟩ := List.cons.inj hlist
    cases hturn
    exact .done _
  | finalize l worker =>
    obtain ⟨rfl, rfl⟩ := List.cons.inj hlist
    cases hturn
    exact .finalizing _ _
  | finalizing l worker =>
    obtain ⟨rfl, rfl⟩ := List.cons.inj hlist
    cases hturn
    exact .done _
  | globalInitialize l =>
    obtain ⟨rfl, rfl⟩ := List.cons.inj hlist
    cases hturn
    exact .globalInitializing _
  | globalInitializing l =>
    obtain ⟨rfl, rfl⟩ := List.cons.inj hlist
    cases hturn
    exact .globalInitialized _
  | globalInitialized l =>
    obtain ⟨rfl, rfl⟩ := List.cons.inj hlist
    cases hturn
    exact .done _
  | globalFinalize l =>
    obtain ⟨rfl, rfl⟩ := List.cons.inj hlist
    cases hturn
    exact .globalFinalizing _
  | globalFinalizing l =>
    obtain ⟨rfl, rfl⟩ := List.cons.inj hlist
    cases hturn
    exact .done _

def Stage.callback : Stage → Callback
  | deciding callback | entering callback | inside callback | marking callback => callback

section Turns

variable {w : Fin n} {st : Stage} {more : List Stage} {f f' : Flags n}

/-- A callback goes on by itself. -/
theorem Turn.callback (h : Turn w st f more f') : ∀ st' ∈ more, st'.callback = st.callback := by
  cases h <;> simp [Stage.callback]

theorem Turn.global (h : Turn w st f more f')
    (hst : ¬ (st.callback = .globalInitialize ∨ st.callback = .globalFinalize)) :
    f'.global = f.global := by
  cases h with
  | markInitialized => exact absurd (Or.inl rfl) hst
  | finalize _ => exact absurd (Or.inr rfl) hst
  | _ => rfl

theorem Turn.locals_of_ne (h : Turn w st f more f') {v : Fin n} (hv : v ≠ w) :
    f'.locals v = f.locals v := by
  cases h <;> simp [Flags.setLocal, hv]

end Turns

/-- The commands that callbacks belong to. -/
def Command.Calls (c : Command) : Callback → Prop
  | .globalInitialize => c = .globalInitialize c.owner
  | .globalFinalize => c = .globalFinalize c.owner
  | .threadLocalInitialize | .run => c.isRun = true
  | .threadLocalFinalize => ∃ worker, c = .threadLocalFinalize c.owner worker

theorem Course.calls {c : Command} {st : Stage} {stages : List Stage} (h : Course c stages)
    (hst : st ∈ stages) : c.Calls st.callback := by
  cases h with
  | start =>
    cases c <;> simp only [Command.course, List.mem_cons, List.not_mem_nil, or_false] at hst
    all_goals first
      | (rcases hst with rfl | rfl <;> rfl)
      | (subst hst; first | rfl | exact ⟨_, rfl⟩)
  | done => cases hst
  | toInitialize hrun | initializing hrun =>
    simp only [List.mem_cons, List.not_mem_nil, or_false] at hst
    rcases hst with rfl | rfl | rfl <;> exact hrun
  | initialized hrun =>
    simp only [List.mem_cons, List.not_mem_nil, or_false] at hst
    rcases hst with rfl | rfl <;> exact hrun
  | run hrun | running hrun =>
    rw [List.mem_singleton.mp hst]
    exact hrun
  | finalize l worker | finalizing l worker =>
    rw [List.mem_singleton.mp hst]
    exact ⟨worker, rfl⟩
  | globalInitialize l | globalInitializing l =>
    simp only [List.mem_cons, List.not_mem_nil, or_false] at hst
    rcases hst with rfl | rfl <;> rfl
  | globalInitialized l | globalFinalize l | globalFinalizing l =>
    rw [List.mem_singleton.mp hst]
    rfl

/-- What is left of a program is a course of its command. -/
def OnCourse (c : Command) (program : List Op) : Prop :=
  ∃ stages, Course c stages ∧ stagesOf program = stages.map (c.owner, ·)

theorem cancel_onCourse {g : LogicalGraph} {lm : LocalityManager} {s : State n} (hwaits : Waits g)
    (hrun : CancelRun g lm s) : Programs OnCourse s := by
  refine cancel_programs hwaits ?_ ?_ hrun
  · intro t c
    exact ⟨c.course, .start c, by simp [Op.stages]⟩
  · intro s w t c op rest e h hrunning hc hprogram heffect hold
    obtain ⟨stages, hcourse, hstages⟩ := hold
    rw [stagesOf_cons] at hstages
    rcases heffect.turn rest with hquiet | ⟨l, st, more, hturns⟩
    · exact ⟨stages, hcourse, by rw [stagesOf_append, hquiet.stages, hstages]⟩
    · rw [hturns.stages, List.singleton_append] at hstages
      cases stages with
      | nil => cases hstages
      | cons first stages =>
        rw [List.map_cons, List.cons.injEq, Prod.mk.injEq] at hstages
        obtain ⟨⟨rfl, rfl⟩, hrest⟩ := hstages
        refine ⟨more ++ stages, hcourse.turn hturns.turn, ?_⟩
        rw [stagesOf_append, hturns.next, hrest, List.map_append]

theorem OnCourse.calls {c : Command} {program : List Op} (h : OnCourse c program) {l : ℕ}
    {st : Stage} (hst : (l, st) ∈ stagesOf program) : c.owner = l ∧ c.Calls st.callback := by
  obtain ⟨stages, hcourse, hstages⟩ := h
  rw [hstages, List.mem_map] at hst
  obtain ⟨st', hst', heq⟩ := hst
  cases heq
  exact ⟨rfl, hcourse.calls hst'⟩

theorem mem_stagesOf {program : List Op} {op : Op} (hop : op ∈ program) {x : ℕ × Stage}
    (hx : x ∈ op.stages) : x ∈ stagesOf program := List.mem_flatMap.mpr ⟨op, hop, hx⟩

end M3bp.Engine
