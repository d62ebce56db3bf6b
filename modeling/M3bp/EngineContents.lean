import M3bp.EngineConsumption
import M3bp.EngineReferences
import Mathlib.Algebra.Order.Group.Multiset
import Mathlib.Data.Multiset.Filter

/-!
What goes into the buffers. A buffer is filled by the task that allocates it and is only read
afterwards: a shuffle copies the records of a fragment, and a gather puts its inputs together.
Of what a sort writes only the sort is kept, since keys may be merged in it. What a processor
writes is left open.
-/
namespace M3bp.Engine

open SchedulerCalls Transition

variable {n : ℕ} {R : Type}

/-- The records of several objects. -/
def contents (content : Object → Multiset R) (objects : List Object) : Multiset R :=
  (objects.map content).sum

/-- The records that are copied into the object that an operation allocates. -/
def Op.copies (content : Object → Multiset R) : Op → Option (Multiset R)
  | partitionFragment _ o => some (content o)
  | runGather _ inputs => some (contents content inputs)
  | _ => none

/-- The operations that sort, for a shuffle or for a port with a value comparator. -/
def Op.sorts : Op → Bool
  | sortRecords _ _ | sortValues _ _ => true
  | _ => false

/-- The object that is allocated next holds what the operation copies, or has been sorted by the
command. -/
structure Fills (content : Object → Multiset R) (author : Object → Command) (s : State n)
    (c : Command) (op : Op) : Prop where
  copies : ∀ records, op.copies content = some records → content s.nextObject = records
  sorts : op.sorts = true → author s.nextObject = c

/-- A step of the engine in which `content` is what has been copied into the objects and `author`
the command that has sorted them. -/
inductive FilledStep (g : LogicalGraph) (lm : LocalityManager) (content : Object → Multiset R)
    (author : Object → Command) (s : State n) : State n → Prop
  | perform {w : Fin n} {t : TaskId} {c : Command} {op : Op} {rest : List Op} {e : Effect}
      (hrunning : (s.workers w).activity = .running t) (hcall : s.system.calls (some w) = .idle)
      (hprogram : (s.workers w).program = op :: rest) (heffect : Performs g s w op e)
      (hc : s.commands[t]? = some c) (hfills : Fills content author s c op) :
      FilledStep g lm content author s (s.apply w rest e)
  | other {s' : State n} (hstep : Step g lm s s') (hsizes : s'.objectSizes = s.objectSizes) :
      FilledStep g lm content author s s'

def FilledRun (g : LogicalGraph) (lm : LocalityManager) (content : Object → Multiset R)
    (author : Object → Command) : State n → Prop :=
  Reachable (fun s => ∃ draws, s = State.start g (Plan.setUp g lm draws))
    (FilledStep g lm content author)

section Runs

variable {g : LogicalGraph} {lm : LocalityManager} {content content' : Object → Multiset R}
  {author author' : Object → Command} {s s' : State n} {w : Fin n} {c : Command} {op : Op}
  {e : Effect}

@[simp] theorem contents_nil : contents content [] = 0 := rfl

@[simp] theorem contents_append (objects objects' : List Object) :
    contents content (objects ++ objects') = contents content objects + contents content objects' := by
  simp [contents]

@[simp] theorem contents_singleton (o : Object) : contents content [o] = content o := by
  simp [contents]

theorem contents_congr {objects : List Object} (h : ∀ o ∈ objects, content o = content' o) :
    contents content objects = contents content' objects := by
  rw [contents, contents, List.map_congr_left h]

theorem FilledStep.step (h : FilledStep g lm content author s s') : Step g lm s s' := by
  cases h with
  | perform hrunning hcall hprogram heffect => exact .perform hrunning hcall hprogram heffect
  | other hstep => exact hstep

theorem FilledRun.run (h : FilledRun g lm content author s) : Run g lm s :=
  Reachable.mono (fun _ _ => FilledStep.step) h

/-- An operation that fills an object allocates it. -/
theorem Performs.allocates (h : Performs g s w op e)
    (hfills : op.copies content ≠ none ∨ op.sorts = true) : e.allocated ≠ [] := by
  cases h with
  | step op choice hoption =>
    cases op with
    | partitionFragment l o => simp [effect]
    | sortRecords l p => simp [effect]
    | runGather l inputs => simp [effect]
    | sortValues l p => simp [effect]
    | _ => simp [Op.copies, Op.sorts] at hfills
  | _ => simp [Op.copies, Op.sorts] at hfills

/-- Where nothing is allocated nothing is filled. -/
theorem Performs.fills (h : Performs g s w op e) (hnone : e.allocated = []) :
    Fills content author s c op := by
  have hnot : ¬ (op.copies content ≠ none ∨ op.sorts = true) := fun hfills =>
    h.allocates hfills hnone
  refine ⟨fun records hrecords => ?_, fun hsorts => ?_⟩
  · exact (hnot (Or.inl (by simp [hrecords]))).elim
  · exact (hnot (Or.inr hsorts)).elim

/-- `run_induction` for the runs in which the buffers are filled. -/
theorem filled_induction (hwaits : Waits g) {P : State n → Prop}
    (hstart : ∀ draws, P (State.start g (Plan.setUp g lm draws)))
    (hperform : ∀ (s : State n) w t c op rest e, Run g lm s → Inv g lm s → P s →
      (s.workers w).activity = .running t → s.system.calls (some w) = .idle →
      (s.workers w).program = op :: rest → Performs g s w op e → s.commands[t]? = some c →
      Fills content author s c op → P (s.apply w rest e))
    (hbetween : ∀ s s' : State n, Inv g lm s → P s → Between s s' → P s')
    (hrun : FilledRun g lm content author s) : P s := by
  induction hrun with
  | start hinit =>
    obtain ⟨draws, rfl⟩ := hinit
    exact hstart draws
  | next hrun hstep ih =>
    have hinv := run_invariant hwaits (FilledRun.run hrun)
    cases hstep with
    | perform hrunning hcall hprogram heffect hc hfills =>
      exact hperform _ _ _ _ _ _ _ (FilledRun.run hrun) hinv ih hrunning hcall hprogram heffect hc
        hfills
    | other hstep hsizes =>
      rcases hinv.step_cases hstep with ⟨w, t, op, rest, e, hrunning, hcall, hprogram, heffect, rfl⟩ |
          hother
      · -- nothing is allocated, so nothing is filled
        obtain ⟨c, hc, -⟩ := hinv.running_fits hrunning (mem_program hprogram)
        have hnone : e.allocated = [] := List.append_right_eq_self.mp hsizes
        exact hperform _ w t c op rest e (FilledRun.run hrun) hinv ih hrunning hcall hprogram
          heffect hc (heffect.fills hnone)
      · exact hbetween _ _ hinv ih hother

/-! Every run can be filled. -/

theorem copies_congr (hop : ∀ o ∈ op.references, content o = content' o) :
    op.copies content = op.copies content' := by
  cases op with
  | partitionFragment l o => simp only [Op.copies, hop o (List.mem_singleton_self o)]
  | runGather l inputs =>
    have hsame : contents content inputs = contents content' inputs := contents_congr hop
    simp only [Op.copies, hsame]
  | _ => rfl

theorem run_allocated (hrun : Run g lm s) : Allocated s := by
  induction hrun with
  | start hinit =>
    obtain ⟨draws, rfl⟩ := hinit
    exact allocated_start draws
  | next _ hstep ih => exact step_allocated ih hstep

theorem Step.sizes_le (h : Step g lm s s') : s.objectSizes.length ≤ s'.objectSizes.length := by
  cases h with
  | perform => exact (List.sublist_append_left _ _).length_le
  | _ => exact le_refl _

/-- Only what has been allocated matters. -/
theorem FilledRun.congr (h : FilledRun g lm content author s)
    (hcontent : ∀ o < s.objectSizes.length, content o = content' o)
    (hauthor : ∀ o < s.objectSizes.length, author o = author' o) :
    FilledRun g lm content' author' s := by
  induction h with
  | start hinit => exact .start hinit
  | @next s s' hrun hstep ih =>
    have hle := hstep.step.sizes_le
    have hbefore := ih (fun o ho => hcontent o (Nat.lt_of_lt_of_le ho hle))
      fun o ho => hauthor o (Nat.lt_of_lt_of_le ho hle)
    have hallocated := run_allocated (FilledRun.run hrun)
    refine hbefore.next ?_
    cases hstep with
    | @perform w t c op rest e hrunning hcall hprogram heffect hc hfills =>
      refine .perform hrunning hcall hprogram heffect hc ?_
      by_cases hnone : e.allocated = []
      · exact heffect.fills hnone
      have hsizes : (s.apply w rest e).objectSizes.length =
          s.objectSizes.length + e.allocated.length := List.length_append
      have hpos := List.length_pos_iff.mpr hnone
      have hnew : s.nextObject < (s.apply w rest e).objectSizes.length := by
        rw [hsizes]
        exact Nat.lt_add_of_pos_right hpos
      refine ⟨fun records hrecords => ?_, fun hsorts => ?_⟩
      · rw [← hcontent s.nextObject hnew]
        refine hfills.copies records ?_
        rw [← hrecords]
        exact copies_congr fun o ho => hcontent o
          (Nat.lt_of_lt_of_le (hallocated.operations w op (mem_program hprogram) o ho) hle)
      · rw [← hauthor s.nextObject hnew]
        exact hfills.sorts hsorts
    | other hstep hsizes => exact .other hstep hsizes

/-- A buffer of a callback was there before or has just been allocated in it. -/
theorem Performs.buffered (h : Performs g s w op e) {o : Object}
    (ho : o ∈ e.buffers.getD (s.workers w).buffers) :
    o ∈ (s.workers w).buffers ∨ o = s.nextObject ∧ ∃ l callback, op = .inCallback l callback := by
  cases h with
  | step op choice hoption =>
    left
    cases op with
    | deliver x p o' =>
      simp only [effect, receiveFragment, receiveProcessFragment] at ho
      split at ho <;> (try split at ho) <;> exact ho
    | link t c deps =>
      cases deps with
      | cons d deps => exact ho
      | nil =>
        simp only [effect, commitTask] at ho
        split at ho <;> exact ho
    | inCallback l callback => cases ho
    | _ =>
      simp only [effect] at ho
      first
        | exact ho
        | (split at ho <;> exact ho)
  | allocate l callback size =>
    rcases List.mem_append.mp ho with ho | ho
    · exact Or.inl ho
    · exact Or.inr ⟨List.mem_singleton.mp ho, l, callback, rfl⟩
  | flush l callback port recordCount o' hport hbuffer => exact Or.inl (List.mem_of_mem_erase ho)
  | setTaskCount l count hinput => exact Or.inl ho

theorem Performs.flushed (h : Performs g s w op e) {x : PortKey} {o : Object}
    (ho : .flushed x o ∈ e.notes) : o ∈ (s.workers w).buffers := by
  cases h with
  | step op choice hoption =>
    cases op with
    | deliver x' p o' =>
      simp only [effect, receiveFragment, receiveProcessFragment] at ho
      split at ho <;> (try split at ho) <;> cases ho
    | link t c deps =>
      cases deps with
      | cons d deps => cases ho
      | nil =>
        simp only [effect, commitTask] at ho
        split at ho <;> cases ho
    | _ =>
      simp only [effect] at ho
      first
        | simp at ho
        | (split at ho <;> simp at ho)
  | flush l callback port recordCount o' hport hbuffer =>
    split at ho
    · cases List.mem_singleton.mp ho
      exact hbuffer
    · cases ho
  | _ => cases ho

theorem allocated_of_flushed (hwaits : Waits g) (hrun : Run g lm s) {x : PortKey} {o : Object}
    (ho : .flushed x o ∈ s.notes) : o < s.objectSizes.length := by
  have hle := run_flushes hwaits hrun o
  have hpos : Note.flushes o (.flushed x o) ≤ (s.notes.map (Note.flushes o)).sum :=
    List.single_le_sum (fun _ _ => Nat.zero_le _) _ (List.mem_map_of_mem ho)
  have hone : Note.flushes o (.flushed x o) = 1 := if_pos rfl
  by_contra hge
  rw [issued, if_neg hge] at hle
  omega

/-- Whatever the processors write into their buffers, every run can be filled. -/
theorem exists_filled (hwaits : Waits g) (own : Object → Multiset R) (hrun : Run g lm s) :
    ∃ content author, FilledRun g lm content author s ∧
      (∀ w, ∀ o ∈ (s.workers w).buffers, content o = own o) ∧
      ∀ x o, .flushed x o ∈ s.notes → content o = own o := by
  induction hrun with
  | start hinit =>
    refine ⟨own, fun _ => .shuffleBarrier 0, .start hinit, fun _ _ _ => rfl, fun _ _ _ => rfl⟩
  | @next s s' hrun hstep ih =>
    obtain ⟨content, author, hfilled, hbuffers, hflushed⟩ := ih
    have hinv := run_invariant hwaits hrun
    have hallocated := run_allocated hrun
    rcases hinv.step_cases hstep with ⟨w, t, op, rest, e, hrunning, hcall, hprogram, heffect, rfl⟩ |
        hother
    · obtain ⟨c, hc, -⟩ := hinv.running_fits hrunning (mem_program hprogram)
      obtain ⟨content', hsame, hnew⟩ : ∃ content' : Object → Multiset R,
          (∀ o < s.objectSizes.length, content o = content' o) ∧
          content' s.nextObject = (op.copies content).getD (own s.nextObject) :=
        ⟨Function.update content s.nextObject _,
          fun o ho => (Function.update_of_ne (Nat.ne_of_lt ho) _ _).symm, Function.update_self _ _ _⟩
      have hcopies : op.copies content = op.copies content' := copies_congr fun o ho =>
        hsame o (hallocated.operations w op (mem_program hprogram) o ho)
      have hold : ∀ w, ∀ o ∈ (s.workers w).buffers, content' o = own o := fun w o ho => by
        rw [← hsame o (hallocated.buffers w o ho)]
        exact hbuffers w o ho
      have hauthor : ∀ o < s.objectSizes.length,
          author o = Function.update author s.nextObject c o := fun o ho =>
        (Function.update_of_ne (Nat.ne_of_lt ho) _ _).symm
      have hkept := hfilled.congr hsame hauthor
      refine ⟨content', Function.update author s.nextObject c,
        hkept.next (.perform hrunning hcall hprogram heffect hc ⟨?_, ?_⟩), fun w' o ho => ?_,
        fun x o ho => ?_⟩
      · intro records hrecords
        rw [hnew, hcopies, hrecords, Option.getD_some]
      · exact fun _ => Function.update_self _ _ _
      · by_cases hw : w' = w
        · subst hw
          simp only [State.apply, Function.update_self] at ho
          rcases heffect.buffered ho with ho | ⟨rfl, l, callback, rfl⟩
          · exact hold w' o ho
          · exact hnew
        · simp only [State.apply, Function.update_of_ne hw] at ho
          exact hold w' o ho
      · rcases List.mem_append.mp ho with ho | ho
        · exact hold w o (heffect.flushed ho)
        · rw [← hsame o (allocated_of_flushed hwaits hrun ho)]
          exact hflushed x o ho
    · refine ⟨content, author, hfilled.next (.other hstep hother.objectSizes), fun w o ho => ?_, ?_⟩
      · rcases hother.workers w with ⟨-, hnone⟩ | ⟨-, hkept, -⟩
        · rw [hnone] at ho
          cases ho
        · exact hbuffers w o (hkept ▸ ho)
      · rw [hother.notes]
        exact hflushed

end Runs

end M3bp.Engine
