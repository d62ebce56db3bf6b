import M3bp.EngineInvariant

/-!
Ledgers over a run. A weight is given to every operation that is still to be
carried out and to every command that has not been taken yet. Only operations
change the total: the weight of an operation turns into that of the operations
and commands that come from it.
-/
namespace M3bp.Engine

open Finset SchedulerCalls Transition

variable {n : ℕ}

/-- Whether a worker has taken `t`, as a number that is one before it has. -/
def untaken (log : List Event) (t : TaskId) : ℕ := if .taken t ∈ log then 0 else 1

/-- A quantity of the commands that wait to be taken. -/
def State.inCommands (s : State n) (k : Command → ℕ) : ℕ :=
  ∑ t ∈ range s.commands.length, untaken s.system.log t * (s.commands[t]?).elim 0 k

/-- The total of a weight. -/
def State.tokens (s : State n) (f : Op → ℕ) (k : Command → ℕ) : ℕ :=
  s.inPrograms f + s.inCommands k

section Marked

variable {α β : Type} [DecidableEq β] {key : α → Option β} {x : β} {a : α}

/-- One for what has the key `x`. -/
def marked (key : α → Option β) (x : β) (a : α) : ℕ := if key a = some x then 1 else 0

theorem marked_of_eq (h : key a = some x) : marked key x a = 1 := if_pos h

theorem marked_of_ne (h : key a ≠ some x) : marked key x a = 0 := if_neg h

theorem marked_le_one : marked key x a ≤ 1 := by
  unfold marked
  split <;> simp

theorem key_of_marked_pos (h : 0 < marked key x a) : key a = some x := by
  by_contra hne
  rw [marked_of_ne hne] at h
  exact Nat.lt_irrefl 0 h

theorem sum_marked_eq_zero {l : List α} (h : ∀ a ∈ l, key a ≠ some x) :
    (l.map (marked key x)).sum = 0 :=
  List.sum_eq_zero fun y hy => by
    obtain ⟨a, ha, rfl⟩ := List.mem_map.mp hy
    exact marked_of_ne (h a ha)

end Marked

section Commands

variable {g : LogicalGraph} {lm : LocalityManager} {s s' : State n} {k : Command → ℕ}

theorem untaken_congr {log log' : List Event} {t : TaskId}
    (h : .taken t ∈ log' ↔ .taken t ∈ log) : untaken log' t = untaken log t := by
  unfold untaken
  exact if_congr h rfl rfl

theorem inCommands_congr (hcommands : s'.commands = s.commands)
    (hlog : ∀ t, .taken t ∈ s'.system.log ↔ .taken t ∈ s.system.log) :
    s'.inCommands k = s.inCommands k := by
  rw [State.inCommands, State.inCommands, hcommands]
  refine Finset.sum_congr rfl fun t _ => ?_
  rw [untaken_congr (hlog t)]

theorem Inv.untaken_of_le (h : Inv g lm s) {t : TaskId} (ht : s.commands.length ≤ t) :
    .taken t ∉ s.system.log := by
  intro htaken
  have hinv := run_inv h.run
  have hcreated := hinv.log.called_created t
    (hinv.taken_called htaken)
  exact absurd ((h.created_iff t).mp hcreated) (Nat.not_lt.mpr ht)

/-- New commands wait to be taken. -/
theorem Inv.inCommands_append (h : Inv g lm s) {new : List Command}
    (hcommands : s'.commands = s.commands ++ new)
    (hlog : ∀ t, .taken t ∈ s'.system.log ↔ .taken t ∈ s.system.log) :
    s'.inCommands k = s.inCommands k + (new.map k).sum := by
  have hnew : ∑ i ∈ range new.length, untaken s'.system.log (s.commands.length + i) *
      (s'.commands[s.commands.length + i]?).elim 0 k = (new.map k).sum := by
    rw [← Counting.sum_range_getElem?]
    refine Finset.sum_congr rfl fun i _ => ?_
    have huntaken : .taken (s.commands.length + i) ∉ s'.system.log := fun htaken =>
      h.untaken_of_le (Nat.le_add_right _ i) ((hlog _).mp htaken)
    rw [untaken, if_neg huntaken, Nat.one_mul, hcommands,
      List.getElem?_append_right (Nat.le_add_right _ i), Nat.add_sub_cancel_left]
  have hold : ∑ t ∈ range s.commands.length, untaken s'.system.log t *
      (s'.commands[t]?).elim 0 k = s.inCommands k := by
    refine Finset.sum_congr rfl fun t ht => ?_
    rw [untaken_congr (hlog t), hcommands, List.getElem?_append_left (mem_range.mp ht)]
  rw [State.inCommands, hcommands, List.length_append, Finset.sum_range_add, ← hcommands, hold,
    hnew]

/-- Taking a task takes its command out of the sum. -/
theorem inCommands_take {t : TaskId} {c : Command} (hc : s.commands[t]? = some c)
    (huntaken : .taken t ∉ s.system.log) (hcommands : s'.commands = s.commands)
    (hlog : ∀ u, .taken u ∈ s'.system.log ↔ u = t ∨ .taken u ∈ s.system.log) :
    s'.inCommands k + k c = s.inCommands k := by
  have hlt : t < s.commands.length := (List.getElem?_eq_some_iff.mp hc).1
  have hsum := Counting.sum_add_of_eq_off (range s.commands.length)
    (fun u => untaken s'.system.log u * (s.commands[u]?).elim 0 k)
    (fun u => untaken s.system.log u * (s.commands[u]?).elim 0 k) t (mem_range.mpr hlt)
    fun u _ hne => by
      rw [untaken_congr ((hlog u).trans (or_iff_right hne))]
  have hold : untaken s.system.log t * (s.commands[t]?).elim 0 k = k c := by
    rw [untaken, if_neg huntaken, hc, Nat.one_mul]
    rfl
  have hnew : untaken s'.system.log t * (s.commands[t]?).elim 0 k = 0 := by
    rw [untaken, if_pos ((hlog t).mpr (Or.inl rfl)), Nat.zero_mul]
  rw [State.inCommands, State.inCommands, hcommands]
  simp only [hold, hnew] at hsum
  exact hsum

theorem tokens_pos_of_untaken {t : TaskId} {c : Command} (f : Op → ℕ)
    (hc : s.commands[t]? = some c) (huntaken : .taken t ∉ s.system.log) (hk : 0 < k c) :
    0 < s.tokens f k := by
  have hlt : t < s.commands.length := (List.getElem?_eq_some_iff.mp hc).1
  have hle : untaken s.system.log t * (s.commands[t]?).elim 0 k ≤ s.inCommands k :=
    Finset.single_le_sum (f := fun t => untaken s.system.log t * (s.commands[t]?).elim 0 k)
      (fun _ _ => Nat.zero_le _) (mem_range.mpr hlt)
  rw [untaken, if_neg huntaken, hc, Nat.one_mul] at hle
  exact Nat.add_pos_right _ (Nat.lt_of_lt_of_le hk hle)

/-- Only one command has a weight. -/
theorem inCommands_le_of_unique (t : TaskId) {m : ℕ}
    (h : ∀ u c, s.commands[u]? = some c → 0 < k c → u = t ∧ k c ≤ m) : s.inCommands k ≤ m := by
  have hterm : ∀ u, untaken s.system.log u * (s.commands[u]?).elim 0 k ≤ if u = t then m else 0 := by
    intro u
    have hle : untaken s.system.log u ≤ 1 := by
      unfold untaken
      split <;> simp
    refine (Nat.mul_le_mul_right _ hle).trans ?_
    rw [Nat.one_mul]
    cases hc : s.commands[u]? with
    | none => exact Nat.zero_le _
    | some c =>
      rcases Nat.eq_zero_or_pos (k c) with hzero | hpos
      · simp [hzero]
      · obtain ⟨rfl, hm⟩ := h u c hc hpos
        simpa using hm
  refine (Finset.sum_le_sum fun u _ => hterm u).trans ?_
  rw [Finset.sum_ite_eq']
  split
  · exact Nat.le_refl m
  · exact Nat.zero_le m

theorem tokens_start (g : LogicalGraph) (p : Plan n) (f : Op → ℕ) :
    (State.start g p).tokens f k = (State.start g p).inCommands k := by
  have hprograms : (State.start g p).inPrograms f = 0 := Finset.sum_eq_zero fun w _ => rfl
  rw [State.tokens, hprograms, Nat.zero_add]

/-- Where the weight is when there is some. -/
theorem exists_of_tokens_pos {f : Op → ℕ} (h : 0 < s.tokens f k) :
    (∃ w, ∃ op ∈ (s.workers w).program, 0 < f op) ∨
      ∃ t c, s.commands[t]? = some c ∧ .taken t ∉ s.system.log ∧ 0 < k c := by
  have hcases : 0 < s.inPrograms f ∨ 0 < s.inCommands k := by
    unfold State.tokens at h
    omega
  rcases hcases with hprograms | hcommands
  · obtain ⟨w, -, hw⟩ := Counting.exists_pos_of_sum_pos hprograms
    have hne : ∃ x ∈ (s.workers w).program.map f, x ≠ 0 := by
      by_contra hall
      push Not at hall
      exact hw.ne' (List.sum_eq_zero hall)
    obtain ⟨x, hx, hpos⟩ := hne
    obtain ⟨op, hop, rfl⟩ := List.mem_map.mp hx
    exact Or.inl ⟨w, op, hop, Nat.pos_of_ne_zero hpos⟩
  · obtain ⟨t, -, ht⟩ := Counting.exists_pos_of_sum_pos hcommands
    refine Or.inr ⟨t, ?_⟩
    cases hc : s.commands[t]? with
    | none => simp [hc] at ht
    | some c =>
      have hpos : 0 < untaken s.system.log t * k c := by simpa [hc] using ht
      refine ⟨c, rfl, fun htaken => ?_, Nat.pos_of_mul_pos_left hpos⟩
      rw [untaken, if_pos htaken, Nat.zero_mul] at hpos
      exact Nat.lt_irrefl 0 hpos

end Commands

section Steps

variable {g : LogicalGraph} {lm : LocalityManager} {s s' : State n} {w : Fin n} {t : TaskId}
  {op : Op} {rest : List Op} {e : Effect} {f : Op → ℕ} {k : Command → ℕ}

/-- An operation changes the members of one logical task at most. -/
theorem locals_apply (s : State n) (w : Fin n) (rest : List Op) (e : Effect) (l : ℕ) :
    (∃ y, e.change = some (l, y) ∧ (s.apply w rest e).locals l = y) ∨
      (s.apply w rest e).locals l = s.locals l := by
  cases hchange : e.change with
  | none => simp [State.apply, hchange]
  | some change =>
    obtain ⟨l', y⟩ := change
    by_cases hl : l = l'
    · subst hl
      exact Or.inl ⟨y, rfl, by simp [State.apply, hchange]⟩
    · right
      simp [State.apply, hchange, hl]

/-- What an operation does to the total. -/
theorem Inv.tokens_apply (h : Inv g lm s) (hrunning : (s.workers w).activity = .running t)
    (hcall : s.system.calls (some w) = .idle)
    (hprogram : (s.workers w).program = op :: rest) (heffect : Performs g s w op e)
    (f : Op → ℕ) (k : Command → ℕ) :
    (s.apply w rest e).tokens f k + f op =
      s.tokens f k + (e.next.map f).sum + (e.action.created.map k).sum := by
  have hlog : (s.apply w rest e).system.log = e.action.events s.system ++ s.system.log :=
    (performed h.run hcall (h.action_valid hrunning hprogram heffect)).log
  have hcommands : (s.apply w rest e).inCommands k =
      s.inCommands k + (e.action.created.map k).sum :=
    h.inCommands_append rfl fun u => by
      rw [hlog, List.mem_append]
      exact or_iff_right (notMem_events (by simp) (by simp) (by simp))
  have hprograms := inPrograms_apply hprogram e f
  unfold State.tokens
  omega

/-- What the steps between operations leave as it is. The totals stay for weights
that a command keeps when it is about to be prepared. -/
structure Between (s s' : State n) : Prop where
  locals : s'.locals = s.locals
  commands : s'.commands = s.commands
  ids : s'.ids = s.ids
  objectSizes : s'.objectSizes = s.objectSizes
  notes : s'.notes = s.notes
  log : s.system.log ⊆ s'.system.log
  tokens : ∀ (f : Op → ℕ) (k : Command → ℕ), (∀ t c, f (.prepare t c) = k c) →
    s'.tokens f k = s.tokens f k
  workers : ∀ w, (s'.workers w).held = [] ∧ (s'.workers w).buffers = [] ∨
    (s'.workers w).held = (s.workers w).held ∧ (s'.workers w).buffers = (s.workers w).buffers ∧
      ∀ t, (s.workers w).activity = .running t → (s'.workers w).activity = .running t

theorem tokens_congr (hcommands : s'.commands = s.commands)
    (hprograms : ∀ w, (s'.workers w).program = (s.workers w).program)
    (hlog : ∀ u, .taken u ∈ s'.system.log ↔ .taken u ∈ s.system.log) :
    s'.tokens f k = s.tokens f k := by
  have hsum : s'.inPrograms f = s.inPrograms f :=
    Finset.sum_congr rfl fun w _ => by rw [hprograms w]
  rw [State.tokens, State.tokens, hsum, inCommands_congr hcommands hlog]

theorem Inv.between_take (h : Inv g lm s) {q : QueueRef} {scheduler : Scheduler}
    (hidle : (s.workers w).activity = .idle)
    (hpop : Scheduler.Pops lm w s.system.scheduler q t scheduler) :
    Between s (s.take w t scheduler) := by
  have hinv := run_inv h.run
  obtain ⟨hprogram, -⟩ := h.idle w (Or.inl hidle)
  obtain ⟨rest, hperm, -⟩ := hpop.perm
  obtain ⟨hpushed, huntaken⟩ := hinv.data.queued q t (hperm.mem_iff.mpr List.mem_cons_self)
  have hlt : t < s.commands.length := (h.created_iff t).mp
    (hinv.log.called_created t (hinv.released_called ⟨q, hpushed⟩))
  have hc : s.commands[t]? = some s.commands[t] := List.getElem?_eq_getElem hlt
  refine ⟨rfl, rfl, rfl, rfl, rfl, List.subset_cons_self _ _, fun f k hprepare => ?_, fun w' => ?_⟩
  · have hcommands : (s.take w t scheduler).inCommands k + k s.commands[t] = s.inCommands k :=
      inCommands_take hc huntaken rfl fun u => by simp [State.take, System.take]
    have hprograms := inPrograms_update s w
      { Worker.idle with
        activity := .running t
        program := (s.commands[t]?).toList.map (.prepare t) } f
    rw [hprogram, hc] at hprograms
    have hsum : (s.take w t scheduler).inPrograms f = s.inPrograms f + k s.commands[t] := by
      simpa [State.take, State.inPrograms, hc, hprepare] using hprograms
    unfold State.tokens
    omega
  · by_cases hw : w' = w
    · left
      simp [State.take, hw, Worker.idle]
    · right
      simp [State.take, hw]

theorem Inv.between_complete (h : Inv g lm s) (hrunning : (s.workers w).activity = .running t)
    (hprogram : (s.workers w).program = []) : Between s (s.complete w t) := by
  obtain ⟨htaken, hlive, -⟩ := h.running w t hrunning
  obtain ⟨rest, hlog, -, -⟩ := (run_inv h.run).beginCompletion_effect (some w) htaken hlive
  have hsystem : (s.complete w t).system = s.system.beginCompletion (some w) t := rfl
  refine ⟨rfl, rfl, rfl, rfl, rfl, ?_, fun f k _ => tokens_congr rfl (fun w' => ?_) fun u => ?_,
    fun w' => ?_⟩
  · rw [hsystem, hlog]
    exact List.subset_cons_self _ _
  · by_cases hw : w' = w
    · simp [State.complete, hw, Worker.idle, hprogram]
    · simp [State.complete, hw]
  · simp [hsystem, hlog]
  · by_cases hw : w' = w
    · left
      simp [State.complete, hw, Worker.idle]
    · right
      simp [State.complete, hw]

/-- A step of the scheduler alone. -/
theorem between_system {sys : System (Option (Fin n))} {events : List Event}
    (hlog : sys.log = events ++ s.system.log) (hevents : ∀ u, .taken u ∉ events) :
    Between s { s with system := sys } := by
  refine ⟨rfl, rfl, rfl, rfl, rfl, ?_, fun f k _ => tokens_congr rfl (fun _ => rfl) fun u => ?_,
    fun _ => Or.inr ⟨rfl, rfl, fun _ hrunning => hrunning⟩⟩
  · simp only [hlog]
    exact List.subset_append_right _ _
  · simp only [hlog, List.mem_append]
    exact or_iff_right (hevents u)

theorem between_settle {sys : System (Option (Fin n))} {events : List Event} {activity : Activity}
    (hrest : ∀ u, (s.workers w).activity ≠ .running u)
    (hlog : sys.log = events ++ s.system.log) (hevents : ∀ u, .taken u ∉ events) :
    Between s { s.setActivity w activity with system := sys } := by
  refine ⟨rfl, rfl, rfl, rfl, rfl, ?_, fun f k _ => tokens_congr rfl (fun w' => ?_) fun u => ?_,
    fun w' => Or.inr ?_⟩
  · simp only [hlog]
    exact List.subset_append_right _ _
  · by_cases hw : w' = w
    · simp [State.setActivity, hw]
    · simp [State.setActivity, hw]
  · simp only [hlog, List.mem_append]
    exact or_iff_right (hevents u)
  · by_cases hw : w' = w
    · subst hw
      simp [State.setActivity, hrest]
    · simp [State.setActivity, hw]

/-- Every step is an operation of a running task or leaves the ledgers alone. -/
theorem Inv.step_cases (h : Inv g lm s) (hstep : Step g lm s s') :
    (∃ w t op rest e, (s.workers w).activity = .running t ∧ s.system.calls (some w) = .idle ∧
      (s.workers w).program = op :: rest ∧ Performs g s w op e ∧ s' = s.apply w rest e) ∨
    Between s s' := by
  have hinv := run_inv h.run
  cases hstep with
  | perform hrunning hcall hprogram heffect =>
    exact Or.inl ⟨_, _, _, _, _, hrunning, hcall, hprogram, heffect, rfl⟩
  | take hidle hpop => exact Or.inr (h.between_take hidle hpop)
  | complete hrunning hcall hprogram => exact Or.inr (h.between_complete hrunning hprogram)
  | commitDecrement hcall =>
    rename_i w t draw
    obtain ⟨pushes, hpushes, hlog, -, -⟩ := hinv.commitDecrement_effect lm draw hcall
    refine Or.inr (@between_system _ _ _ (pushes ++ [.committed t]) (by simp [hlog]) fun u => ?_)
    simpa using hpushes.notMem (by simp)
  | drain hcall =>
    rename_i w t x rest draw
    obtain ⟨pushes, hpushes, hlog, -, -⟩ := hinv.drain_effect lm draw hcall
    exact Or.inr (between_system hlog fun u => hpushes.notMem (by simp))
  | finish hcall =>
    rename_i w t
    have hcompleting := h.completing_of_draining hcall
    exact Or.inr (@between_settle _ _ _ _ [.finished t] _ (fun u => by simp [hcompleting]) rfl
      (by simp))
  | leave hidle hfinished =>
    exact Or.inr (@between_settle _ _ _ _ [] _ (fun u => by simp [hidle]) rfl (by simp))

/-- What holds at the start, is kept by every operation and does not depend on more
than the steps between operations leave alone, holds in every state of a run. -/
theorem run_induction (hwaits : Waits g) {P : State n → Prop}
    (hstart : ∀ draws, P (State.start g (Plan.setUp g lm draws)))
    (hperform : ∀ (s : State n) w t op rest e, Run g lm s → Inv g lm s → P s →
      (s.workers w).activity = .running t → s.system.calls (some w) = .idle →
      (s.workers w).program = op :: rest → Performs g s w op e → P (s.apply w rest e))
    (hbetween : ∀ s s' : State n, Inv g lm s → P s → Between s s' → P s')
    (hrun : Run g lm s) : P s := by
  induction hrun with
  | start hinit =>
    obtain ⟨draws, rfl⟩ := hinit
    exact hstart draws
  | next hrun hstep ih =>
    have hinv := run_invariant hwaits hrun
    rcases hinv.step_cases hstep with ⟨w, t, op, rest, e, hrunning, hcall, hprogram, heffect, rfl⟩ |
        hother
    · exact hperform _ w t op rest e hrun hinv ih hrunning hcall hprogram heffect
    · exact hbetween _ _ hinv ih hother

end Steps

end M3bp.Engine
