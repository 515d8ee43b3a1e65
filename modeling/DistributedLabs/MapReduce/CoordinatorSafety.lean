import Mathlib.Data.List.Nodup
import Mathlib.Tactic.Push
import DistributedLabs.MapReduce.Protocol

/-!
# `MapReduce.CoordinatorSafety` — phases only advance, and every attempt is accounted for

The handler of a report checks nothing but the attempt number, and sets the phase whenever a table is
completed. What makes that safe is `HeldOk`: a worker that still holds an attempt equal to the task's counter
holds a task that is in progress, and no two workers hold the same attempt. So an accepted report always
completes a task in progress, hence a task of the current phase.

Three invariants, each kept by every step and each from what `step_task` says of one step:

* `HeldOk`: what workers hold agrees with the tables.
* `PhaseOk`: what the phase says of the tables. It needs `HeldOk` for reports.
* `AccountsOk`: the attempts that the trace hands out and accepts agree with the records of the tasks.

`phase_safety` and `attempt_accounting` are the two results; `no_files` and `no_reduce` say what becomes of
the jobs that `phase_safety` excludes.
-/

namespace DistributedLabs
namespace MapReduce

open Lib

/-! ## What workers still hold -/

/-- An attempt still held is not ahead of its task, and if it is the task's own attempt then the task is in
    progress; and no attempt is held twice. -/
structure HeldOk (s : State) : Prop where
  held : ∀ {w args}, s.held w = some args → ∃ k task, args.taskType = k.taskType
    ∧ (s.coord.tasks k)[args.taskId]? = some task ∧ args.attempt ≤ task.attempt
    ∧ (args.attempt = task.attempt → task.state = .inProgress)
  unique : ∀ {w w' args}, s.held w = some args → s.held w' = some args → w = w'

theorem HeldOk.task {s : State} (h : HeldOk s) {w : WorkerId} {k : Kind} {i attempt : Nat}
    (hw : s.held w = some ⟨k.taskType, i, attempt⟩) {task : Task}
    (ht : (s.coord.tasks k)[i]? = some task) :
    attempt ≤ task.attempt ∧ (attempt = task.attempt → task.state = .inProgress) := by
  obtain ⟨k', task', hk, ht', hle, heq⟩ := h.held hw
  obtain rfl := taskType_inj hk
  obtain rfl := Option.some.inj (ht'.symm.trans ht)
  exact ⟨hle, heq⟩

theorem heldOk_init (files : List String) (nReduce : Nat) : HeldOk (coordSys files nReduce).init :=
  { held := fun h => by simp [coordSys] at h
    unique := fun h => by simp [coordSys] at h }

theorem pending_taskReply (c : Coordinator) (k : Kind) (task : Task) (i : Nat) :
    (c.taskReply k task i).pending = some ⟨k.taskType, i, task.attempt⟩ := by
  simp [RPCReply.pending, Coordinator.taskReply]

/-- What a worker holds after a step it held before, or was just handed. -/
theorem step_held {s s' : State} {e : Event} (h : Step s e s') {w : WorkerId} {args : DoneArgs}
    (hw' : s'.held w = some args) :
    (s.held w = some args ∧ (∀ accepted, e ≠ .report w args accepted))
    ∨ ∃ k task now, s.coord.phase.kind = some k ∧ (s.coord.tasks k)[args.taskId]? = some task
      ∧ task.state = .idle ∧ args = ⟨k.taskType, args.taskId, task.attempt⟩
      ∧ e = .assign w now (s.coord.taskReply k task args.taskId) := by
  cases h with
  | @assign w₀ now hnone =>
      rcases update_cases hw' with ⟨rfl, hnew⟩ | ⟨_, hw⟩
      · rcases assign_cases s.coord now with ⟨k, task, i, hk, hi, hidle, _, hreply⟩ | ⟨_, hreply⟩
        · rw [hreply, pending_taskReply] at hnew
          obtain rfl := Option.some.inj hnew
          exact Or.inr ⟨k, task, now, hk, hi, hidle, rfl, by rw [hreply]⟩
        · simp [RPCReply.pending, hreply] at hnew
      · exact Or.inl ⟨hw, by simp⟩
  | @report w₀ args₀ coord' hw₀ _ =>
      rcases update_cases hw' with ⟨_, hnone⟩ | ⟨hne, hw⟩
      · cases hnone
      · refine Or.inl ⟨hw, fun accepted hev => hne ?_⟩
        exact (Event.report.inj hev).1.symm
  | @crash w₀ =>
      rcases update_cases hw' with ⟨_, hnone⟩ | ⟨_, hw⟩
      · cases hnone
      · exact Or.inl ⟨hw, by simp⟩
  | tick => exact Or.inl ⟨hw', by simp⟩

/-- An attempt that somebody keeps holding through a step stays behind its task, or in progress. -/
theorem HeldOk.held_step {s : State} (h : HeldOk s) {e : Event} {k : Kind} {i : Nat} {task task' : Task}
    (hmove : TaskMove s k i task e task') {w : WorkerId} {attempt : Nat}
    (hw : s.held w = some ⟨k.taskType, i, attempt⟩)
    (hkeep : ∀ accepted, e ≠ .report w ⟨k.taskType, i, attempt⟩ accepted)
    (ht : (s.coord.tasks k)[i]? = some task) :
    attempt ≤ task'.attempt ∧ (attempt = task'.attempt → task'.state = .inProgress) := by
  obtain ⟨hle, heq⟩ := h.task hw ht
  cases hmove with
  | same _ _ => exact ⟨hle, heq⟩
  | started _ hidle => exact ⟨hle, fun _ => rfl⟩
  | @completed w₀ hw₀ =>
      refine ⟨hle, fun hatt => ?_⟩
      -- the report was about this very attempt, so it was this worker's
      have hsame : attempt = task.attempt := hatt
      subst hsame
      obtain rfl := h.unique hw₀ hw
      exact absurd rfl (hkeep true)
  | expired _ _ =>
      refine ⟨Nat.le_succ_of_le hle, fun hatt => ?_⟩
      have hsucc : attempt = task.attempt + 1 := hatt
      omega

theorem heldOk_step {s s' : State} {e : Event} (h : HeldOk s) (hs : Step s e s') : HeldOk s' := by
  constructor
  · intro w args hw'
    rcases step_held hs hw' with ⟨hw, hkeep⟩ | ⟨k, task, now, _, ht, hidle, hargs, rfl⟩
    · obtain ⟨k, task, hk, ht, _⟩ := h.held hw
      obtain ⟨task', ht', hmove⟩ := step_task hs ht
      obtain ⟨type, i, attempt⟩ := args
      obtain rfl : type = k.taskType := hk
      exact ⟨k, task', rfl, ht', h.held_step hmove hw hkeep ht⟩
    · obtain ⟨task', ht', hmove⟩ := step_task hs ht
      refine ⟨k, task', by rw [hargs], ht', ?_⟩
      rw [hargs]
      cases hmove with
      | same hno _ => simp [Event.handout, Coordinator.taskReply] at hno
      | started _ _ => exact ⟨Nat.le_refl _, fun _ => rfl⟩
  · intro w w' args hw hw'
    rcases step_held hs hw with ⟨hw₀, hkeep⟩ | ⟨k, task, now, _, ht, hidle, hargs, he⟩
    · rcases step_held hs hw' with ⟨hw₀', _⟩ | ⟨k, task, now, _, ht, hidle, hargs, _⟩
      · exact h.unique hw₀ hw₀'
      · -- a task handed out now was idle, so nobody held this attempt
        rw [hargs] at hw₀
        have hprog := (h.task hw₀ ht).2 rfl
        rw [hidle] at hprog
        cases hprog
    · rcases step_held hs hw' with ⟨hw₀', _⟩ | ⟨k', task', now', _, _, _, _, he'⟩
      · rw [hargs] at hw₀'
        have hprog := (h.task hw₀' ht).2 rfl
        rw [hidle] at hprog
        cases hprog
      · exact (Event.assign.inj (he.symm.trans he')).1

theorem heldOk {files : List String} {nReduce : Nat} {tr : List Event} {s : State}
    (h : Reaches (coordSys files nReduce) tr s) : HeldOk s :=
  Reaches.invariant (P := fun _ s => HeldOk s) (heldOk_init files nReduce)
    (fun _ _ _ _ _ ih hs => heldOk_step ih hs) h

/-- A worker that reports what it holds does not make the coordinator panic. -/
theorem HeldOk.report_isSome {s : State} (h : HeldOk s) {w : WorkerId} {args : DoneArgs}
    (hw : s.held w = some args) : (s.coord.reportTaskCompletion args).isSome = true := by
  obtain ⟨k, task, hk, ht, _⟩ := h.held hw
  refine MapReduce.report_isSome (by rw [hk, kind_taskType]) (List.getElem?_eq_some_iff.mp ht).1

/-- An accepted report completes a task that was in progress. -/
theorem HeldOk.completed_inProgress {s : State} (h : HeldOk s) {w : WorkerId} {k : Kind} {i : Nat}
    {task : Task} (ht : (s.coord.tasks k)[i]? = some task)
    (hw : s.held w = some ⟨k.taskType, i, task.attempt⟩) : task.state = .inProgress :=
  (h.task hw ht).2 rfl

/-! ## Phases -/

/-- How the phase comes out of a step. -/
inductive PhaseMove : Phase → Phase → Prop where
  | same {p} : PhaseMove p p
  | mapDone : PhaseMove .map .reduce
  | reduceDone : PhaseMove .reduce .allDone

/-- The phase invariant. -/
structure PhaseOk (c : Coordinator) : Prop where
  mapPhase : c.phase = .map → ∀ {i : Nat} {task : Task}, (c.tasks .reduce)[i]? = some task →
    task.state = .idle ∧ task.attempt = 0
  afterMap : c.phase ≠ .map → c.Complete .map
  allDone : c.phase = .allDone → c.Complete .reduce

theorem phaseOk_init (files : List String) (nReduce : Nat) : PhaseOk (makeCoordinator files nReduce) := by
  refine ⟨fun _ i task ht => makeCoordinator_task ht, fun h => absurd rfl h, fun h => by cases h⟩

theorem Complete.get {c : Coordinator} {k : Kind} (h : c.Complete k) {i : Nat} {task : Task}
    (ht : (c.tasks k)[i]? = some task) : task.state = .completed :=
  h task (List.mem_of_getElem? ht)

/-- A task in progress belongs to the table of the current phase. -/
theorem PhaseOk.kind_of_inProgress {c : Coordinator} (h : PhaseOk c) {k : Kind} {i : Nat} {task : Task}
    (ht : (c.tasks k)[i]? = some task) (hprog : task.state = .inProgress) : c.phase.kind = some k := by
  cases k with
  | map =>
      by_cases hp : c.phase = .map
      · rw [hp]; rfl
      · have hdone := Complete.get (h.afterMap hp) ht
        rw [hprog] at hdone
        cases hdone
  | reduce =>
      cases hp : c.phase with
      | map =>
          have hidle := (h.mapPhase hp ht).1
          rw [hprog] at hidle
          cases hidle
      | reduce => rfl
      | allDone =>
          have hdone := Complete.get (h.allDone hp) ht
          rw [hprog] at hdone
          cases hdone

/-- What a report does to the phase, when it is about something that a worker holds. -/
theorem report_phase {s : State} (hH : HeldOk s) (hP : PhaseOk s.coord) {w : WorkerId} {args : DoneArgs}
    {coord' : Coordinator} (hw : s.held w = some args)
    (hc : s.coord.reportTaskCompletion args = some coord') :
    coord'.phase = s.coord.phase
    ∨ ∃ k, s.coord.phase.kind = some k ∧ coord'.phase = k.nextPhase ∧ coord'.Complete k := by
  obtain ⟨k, task, hk, ht, _, hprog⟩ := hH.held hw
  have hkind : args.taskType.kind = some k := by rw [hk, kind_taskType]
  obtain ⟨task', ht', ⟨_, rfl⟩ | ⟨heq, _, hphase⟩⟩ := report_cases hkind hc
  · exact Or.inl rfl
  · obtain rfl := Option.some.inj (ht'.symm.trans ht)
    rcases hphase with ⟨hcomp, hp⟩ | ⟨_, hp⟩
    · exact Or.inr ⟨k, hP.kind_of_inProgress ht (hprog heq.symm), hp, hcomp⟩
    · exact Or.inl hp

/-- A step keeps the phase, or completes the phase's table and goes on to the next. -/
theorem step_phase {s s' : State} {e : Event} (hH : HeldOk s) (hP : PhaseOk s.coord) (hs : Step s e s') :
    s'.coord.phase = s.coord.phase
    ∨ ∃ k, s.coord.phase.kind = some k ∧ s'.coord.phase = k.nextPhase ∧ s'.coord.Complete k := by
  cases hs with
  | @assign w now _ =>
      left
      rcases assign_cases s.coord now with ⟨k, task, i, _, _, _, hc, _⟩ | ⟨hc, _⟩
      · show (s.coord.assign now).1.phase = s.coord.phase
        rw [hc, setTasks_phase]
      · show (s.coord.assign now).1.phase = s.coord.phase
        rw [hc]
  | report hw hc => exact report_phase hH hP hw hc
  | crash => exact Or.inl rfl
  | tick => exact Or.inl (checkTimeout_phase _ _)

/-- The phase goes forward by one, or stays. -/
theorem phaseMove_of_step {s s' : State} {e : Event} (hH : HeldOk s) (hP : PhaseOk s.coord)
    (hs : Step s e s') : PhaseMove s.coord.phase s'.coord.phase := by
  rcases step_phase hH hP hs with hsame | ⟨k, hk, hnext, _⟩
  · rw [hsame]
    exact .same
  · cases hp : s.coord.phase with
    | map =>
        rw [hp] at hk
        cases hk
        rw [hnext]
        exact .mapDone
    | reduce =>
        rw [hp] at hk
        cases hk
        rw [hnext]
        exact .reduceDone
    | allDone =>
        rw [hp] at hk
        cases hk

/-- A completed task is left alone by every step. -/
theorem completed_step {s s' : State} {e : Event} (hH : HeldOk s) (hs : Step s e s') {k : Kind} {i : Nat}
    {task : Task} (ht : (s.coord.tasks k)[i]? = some task) (hdone : task.state = .completed) :
    (s'.coord.tasks k)[i]? = some task := by
  obtain ⟨task', ht', hmove⟩ := step_task hs ht
  cases hmove with
  | same _ _ => exact ht'
  | started _ hidle =>
      rw [hdone] at hidle
      cases hidle
  | completed hw =>
      have hprog := hH.completed_inProgress ht hw
      rw [hdone] at hprog
      cases hprog
  | expired _ hprog =>
      rw [hdone] at hprog
      cases hprog

theorem complete_step {s s' : State} {e : Event} (hH : HeldOk s) (hs : Step s e s') {k : Kind}
    (h : s.coord.Complete k) : s'.coord.Complete k := by
  intro task' hmem
  obtain ⟨i, ht'⟩ := List.mem_iff_getElem?.mp hmem
  obtain ⟨task, ht, _⟩ := step_task_back hs ht'
  have hsame := completed_step hH hs ht (Complete.get h ht)
  obtain rfl := Option.some.inj (hsame.symm.trans ht')
  exact Complete.get h ht

theorem phaseOk_step {s s' : State} {e : Event} (hH : HeldOk s) (hP : PhaseOk s.coord)
    (hs : Step s e s') : PhaseOk s'.coord := by
  have hphase := step_phase hH hP hs
  refine ⟨?_, ?_, ?_⟩
  · intro hmap i task' ht'
    have hmap₀ : s.coord.phase = .map := by
      rcases hphase with hsame | ⟨k, _, hnext, _⟩
      · exact hsame.symm.trans hmap
      · rw [hnext] at hmap
        cases k <;> cases hmap
    obtain ⟨task, ht, hmove⟩ := step_task_back hs ht'
    have hidle := hP.mapPhase hmap₀ ht
    -- nothing but map tasks can move in the map phase
    cases hmove with
    | same _ _ => exact hidle
    | started hk _ => rw [hmap₀] at hk; cases hk
    | completed hw =>
        have hprog := hH.completed_inProgress ht hw
        rw [hidle.1] at hprog
        cases hprog
    | expired hk _ => rw [hmap₀] at hk; cases hk
  · intro hne
    rcases hphase with hsame | ⟨k, hk, hnext, hcomp⟩
    · exact complete_step hH hs (hP.afterMap (hsame ▸ hne))
    · cases k with
      | map => exact hcomp
      | reduce =>
          refine complete_step hH hs (hP.afterMap (fun hmap => ?_))
          rw [hmap] at hk
          cases hk
  · intro hall
    rcases hphase with hsame | ⟨k, _, hnext, hcomp⟩
    · exact complete_step hH hs (hP.allDone (hsame ▸ hall))
    · cases k with
      | map => rw [hnext] at hall; cases hall
      | reduce => exact hcomp

theorem phaseOk {files : List String} {nReduce : Nat} {tr : List Event} {s : State}
    (h : Reaches (coordSys files nReduce) tr s) : PhaseOk s.coord :=
  Reaches.invariant (P := fun _ s => PhaseOk s.coord) (phaseOk_init files nReduce)
    (fun _ _ _ _ hrun ih hs => phaseOk_step (heldOk hrun) ih hs) h

/-! ## Never stuck -/

theorem tasks_length {files : List String} {nReduce : Nat} {tr : List Event} {s : State}
    (h : Reaches (coordSys files nReduce) tr s) :
    (s.coord.tasks .map).length = files.length ∧ (s.coord.tasks .reduce).length = nReduce := by
  refine Reaches.invariant (P := fun _ s => (s.coord.tasks .map).length = files.length
    ∧ (s.coord.tasks .reduce).length = nReduce) ?_ ?_ h
  · exact ⟨List.length_map _, List.length_replicate⟩
  · intro _ s e s' _ ih hs
    rw [step_length hs, step_length hs]
    exact ih

/-- The table of the current phase is not completed. -/
def Open (c : Coordinator) : Prop := ∀ {k}, c.phase.kind = some k → ¬ c.Complete k

/-- A step that leaves the phase alone leaves its table open. -/
theorem open_of_same_phase {s s' : State} {e : Event} (hs : Step s e s') (h : Open s.coord)
    (hsame : s'.coord.phase = s.coord.phase) : Open s'.coord := by
  intro k hk' hcomp
  have hk : s.coord.phase.kind = some k := hsame ▸ hk'
  refine h hk (fun task hmem => ?_)
  obtain ⟨i, ht⟩ := List.mem_iff_getElem?.mp hmem
  obtain ⟨task', ht', hmove⟩ := step_task hs ht
  have hdone := Complete.get hcomp ht'
  cases hmove with
  | same _ _ => exact hdone
  | started _ _ => cases hdone
  | completed hw =>
      -- the report that completes the table moves the phase
      obtain ⟨_, hc, _⟩ := step_report hs
      obtain ⟨_, _, ⟨_, heq⟩ | ⟨_, _, ⟨_, hp⟩ | ⟨hnot, _⟩⟩⟩ := report_cases (kind_taskType k) hc
      · rw [heq] at hcomp
        exact Complete.get hcomp ht
      · rw [hp] at hk'
        cases k <;> cases hk'
      · exact absurd hcomp hnot
  | expired _ _ => cases hdone

/-- The reduce table is still untouched when the reduce phase begins. -/
theorem reduce_open {s s' : State} {e : Event} (hH : HeldOk s) (hP : PhaseOk s.coord) (hs : Step s e s')
    (hmap : s.coord.phase = .map) (hne : s.coord.tasks .reduce ≠ []) : ¬ s'.coord.Complete .reduce := by
  intro hcomp
  obtain ⟨task, hmem⟩ := List.exists_mem_of_ne_nil _ hne
  obtain ⟨i, ht⟩ := List.mem_iff_getElem?.mp hmem
  have hidle := (hP.mapPhase hmap ht).1
  obtain ⟨task', ht', hmove⟩ := step_task hs ht
  have hdone := Complete.get hcomp ht'
  cases hmove with
  | same _ _ => rw [hidle] at hdone; cases hdone
  | started _ _ => cases hdone
  | completed hw =>
      have hprog := hH.completed_inProgress ht hw
      rw [hidle] at hprog
      cases hprog
  | expired _ _ => cases hdone

theorem open_step {s s' : State} {e : Event} (hH : HeldOk s) (hP : PhaseOk s.coord) (h : Open s.coord)
    (hne : s.coord.tasks .reduce ≠ []) (hs : Step s e s') : Open s'.coord := by
  rcases step_phase hH hP hs with hsame | ⟨k, hk, hnext, _⟩
  · exact open_of_same_phase hs h hsame
  · intro k' hk'
    rw [hnext] at hk'
    cases k with
    | map =>
        obtain rfl : Kind.reduce = k' := Option.some.inj hk'
        have hmap : s.coord.phase = .map := by
          cases hp : s.coord.phase with
          | map => rfl
          | reduce => rw [hp] at hk; cases hk
          | allDone => rw [hp] at hk; cases hk
        exact reduce_open hH hP hs hmap hne
    | reduce => cases hk'

theorem open_init {files : List String} (hf : files ≠ []) (nReduce : Nat) :
    Open (makeCoordinator files nReduce) := by
  intro k hk hcomp
  obtain rfl : Kind.map = k := Option.some.inj hk
  obtain ⟨file, hmem⟩ := List.exists_mem_of_ne_nil _ hf
  have hidle := hcomp { file := file } (List.mem_map_of_mem hmem)
  cases hidle

/-- A phase that is not the last always has a task left to complete. -/
theorem open_of_reaches {files : List String} {nReduce : Nat} (hf : files ≠ []) (hn : 1 ≤ nReduce)
    {tr : List Event} {s : State} (h : Reaches (coordSys files nReduce) tr s) : Open s.coord := by
  refine Reaches.invariant (P := fun _ s => Open s.coord) (open_init hf nReduce) ?_ h
  intro tr s e s' hrun ih hs
  refine open_step (heldOk hrun) (phaseOk hrun) ih (fun hnil => ?_) hs
  have hlen := (tasks_length hrun).2
  rw [hnil] at hlen
  simp at hlen
  omega

/-! ## Jobs without tasks -/

/-- A phase without tasks does not end: there is no report to end it. -/
theorem phase_stays {s s' : State} {e : Event} (hH : HeldOk s) (hP : PhaseOk s.coord) (hs : Step s e s') {k : Kind}
    (hk : s.coord.phase.kind = some k) (hempty : s.coord.tasks k = []) : s'.coord.phase = s.coord.phase := by
  cases hs with
  | @assign w now _ =>
      show (s.coord.assign now).1.phase = s.coord.phase
      rcases assign_cases s.coord now with ⟨k', task, i, _, _, _, hc, _⟩ | ⟨hc, _⟩
      · rw [hc, setTasks_phase]
      · rw [hc]
  | @report w args coord' hw hc =>
      obtain ⟨k', task, hk', ht, _, hprog⟩ := hH.held hw
      have hkind : args.taskType.kind = some k' := by rw [hk', kind_taskType]
      obtain ⟨task', ht', ⟨_, rfl⟩ | ⟨heq, -⟩⟩ := report_cases hkind hc
      · rfl
      · obtain rfl := Option.some.inj (ht'.symm.trans ht)
        have hphase := hP.kind_of_inProgress ht (hprog heq.symm)
        obtain rfl : k' = k := Option.some.inj (hphase.symm.trans hk)
        rw [hempty] at ht
        cases ht
  | crash => rfl
  | tick => exact checkTimeout_phase _ _

/-- A job without files never gets anywhere. -/
theorem no_files {files : List String} {nReduce : Nat} {tr : List Event} {s : State} (hf : files = [])
    (h : Reaches (coordSys files nReduce) tr s) : s.coord.phase = .map := by
  refine Reaches.invariant (P := fun _ s => s.coord.phase = .map) rfl ?_ h
  intro tr s e s' hrun ih hs
  have hempty : s.coord.tasks .map = [] := by
    apply List.eq_nil_of_length_eq_zero
    rw [(tasks_length hrun).1, hf]
    rfl
  rw [phase_stays (heldOk hrun) (phaseOk hrun) hs (by rw [ih]; rfl) hempty]
  exact ih

/-- A job without reduce tasks does not get past the reduce phase. -/
theorem no_reduce {files : List String} {nReduce : Nat} {tr : List Event} {s : State} (hn : nReduce = 0)
    (h : Reaches (coordSys files nReduce) tr s) : s.coord.phase ≠ .allDone := by
  refine Reaches.invariant (P := fun _ s => s.coord.phase ≠ .allDone) (fun hall => by cases hall) ?_ h
  intro tr s e s' hrun ih hs
  rcases step_phase (heldOk hrun) (phaseOk hrun) hs with hsame | ⟨k, hk, hnext, -⟩
  · rw [hsame]
    exact ih
  · cases k with
    | map =>
        rw [hnext]
        decide
    | reduce =>
        have hempty : s.coord.tasks .reduce = [] := by
          apply List.eq_nil_of_length_eq_zero
          rw [(tasks_length hrun).2, hn]
        rw [phase_stays (heldOk hrun) (phaseOk hrun) hs hk hempty]
        exact ih

/-! ## Every attempt is accounted for -/

/-- How often a task has been handed out, by its record: once for every attempt it has lost, and once more
    unless it waits to be handed out. -/
def Task.handed (task : Task) : Nat := task.attempt + if task.state = .idle then 0 else 1

/-- The bookkeeping invariant: the attempts handed out are `0, 1, 2, …` in this order, and a completed task
    has had exactly one report accepted, that of its last attempt. -/
structure AccountsOk (tr : List Event) (c : Coordinator) : Prop where
  handed : ∀ {k : Kind} {i : Nat} {task : Task}, (c.tasks k)[i]? = some task →
    handouts tr k i = List.range task.handed
  absent : ∀ {k : Kind} {i : Nat}, (c.tasks k)[i]? = none → handouts tr k i = []
  accepted : ∀ {k : Kind} {i : Nat} {task : Task}, (c.tasks k)[i]? = some task →
    acceptances tr k i = if task.state = .completed then [task.attempt] else []

theorem accountsOk_init (files : List String) (nReduce : Nat) :
    AccountsOk [] (makeCoordinator files nReduce) := by
  refine ⟨fun ht => ?_, fun _ => rfl, fun ht => ?_⟩
  · obtain ⟨hidle, hzero⟩ := makeCoordinator_task ht
    simp [handouts, Task.handed, hidle, hzero]
  · obtain ⟨hidle, _⟩ := makeCoordinator_task ht
    simp [acceptances, hidle]

theorem handout_taskReply (c : Coordinator) (w : WorkerId) (now : Nat) (k : Kind) (task : Task) (i : Nat) :
    (Event.assign w now (c.taskReply k task i)).handout k i = some task.attempt := by
  simp [Event.handout, Coordinator.taskReply]

/-- Only tasks of a table are handed out. -/
theorem handout_of_absent {s s' : State} {e : Event} (hs : Step s e s') {k : Kind} {i : Nat}
    (hnone : (s.coord.tasks k)[i]? = none) : e.handout k i = none := by
  cases hs with
  | @assign w now _ =>
      rcases assign_cases s.coord now with ⟨k₀, task, i₀, _, hi₀, _, _, hreply⟩ | ⟨_, hreply⟩
      · rw [hreply]
        refine if_neg ?_
        rintro ⟨hk, hi⟩
        obtain rfl := taskType_inj hk
        obtain rfl : i₀ = i := hi
        rw [hnone] at hi₀
        cases hi₀
      · refine if_neg ?_
        rintro ⟨hk, _⟩
        rw [hk, kind_taskType] at hreply
        cases hreply
  | report _ _ => rfl
  | crash => rfl
  | tick => rfl

theorem accountsOk_step {tr : List Event} {s s' : State} {e : Event} (hH : HeldOk s)
    (hA : AccountsOk tr s.coord) (hs : Step s e s') : AccountsOk (tr ++ [e]) s'.coord := by
  refine ⟨?_, ?_, ?_⟩
  · intro k i task' ht'
    obtain ⟨task, ht, hmove⟩ := step_task_back hs ht'
    rw [handouts_snoc, hA.handed ht]
    cases hmove with
    | same hno _ => rw [hno, Option.toList_none, List.append_nil]
    -- a hand-out: the next number, since an idle task has lost all its attempts
    | started _ hidle =>
        rw [handout_taskReply]
        simp [Task.handed, Task.start, hidle, List.range_succ]
    | completed hw =>
        have hprog := hH.completed_inProgress ht hw
        simp [Event.handout, Task.handed, Task.complete, hprog]
    -- an expiry: one attempt more is lost, and none is in progress
    | expired _ hprog => simp [Event.handout, Task.handed, hprog]
  · intro k i hnone'
    have hnone : (s.coord.tasks k)[i]? = none := by
      rw [List.getElem?_eq_none_iff] at hnone' ⊢
      rwa [← step_length hs k]
    rw [handouts_snoc, hA.absent hnone, handout_of_absent hs hnone]
    rfl
  · intro k i task' ht'
    obtain ⟨task, ht, hmove⟩ := step_task_back hs ht'
    rw [acceptances_snoc, hA.accepted ht]
    cases hmove with
    | same _ hno => rw [hno, Option.toList_none, List.append_nil]
    | started _ hidle => simp [Event.acceptance, Task.start, hidle]
    | completed hw =>
        have hprog := hH.completed_inProgress ht hw
        simp [Event.acceptance, Task.complete, hprog]
    | expired _ hprog => simp [Event.acceptance, hprog]

theorem accountsOk {files : List String} {nReduce : Nat} {tr : List Event} {s : State}
    (h : Reaches (coordSys files nReduce) tr s) : AccountsOk tr s.coord :=
  Reaches.invariant (P := fun tr s => AccountsOk tr s.coord) (accountsOk_init files nReduce)
    (fun _ _ _ _ hrun ih hs => accountsOk_step (heldOk hrun) ih hs) h

/-- Without an expiry no attempt is lost. -/
theorem attempt_zero {files : List String} {nReduce : Nat} {tr : List Event} {s : State}
    (h : Reaches (coordSys files nReduce) tr s) (hno : ∀ now, .tick now true ∉ tr) {k : Kind} {i : Nat}
    {task : Task} (ht : (s.coord.tasks k)[i]? = some task) : task.attempt = 0 := by
  refine Reaches.invariant (P := fun tr s => (∀ now, Event.tick now true ∉ tr) →
    ∀ {k : Kind} {i : Nat} {task : Task}, (s.coord.tasks k)[i]? = some task → task.attempt = 0) ?_ ?_ h hno ht
  · exact fun _ _ _ _ ht => (makeCoordinator_task ht).2
  · intro tr s e s' _ ih hs hno k i task' ht'
    obtain ⟨task, ht, hmove⟩ := step_task_back hs ht'
    have hzero := ih (fun now hmem => hno now (List.mem_append_left _ hmem)) ht
    cases hmove with
    | same _ _ => exact hzero
    | started _ _ => exact hzero
    | completed _ => exact hzero
    | @expired now _ _ => exact absurd (List.mem_append_right _ (List.mem_singleton_self _)) (hno now)

/-- A rejected report changes nothing. -/
theorem rejected_unchanged {s s' : State} (hH : HeldOk s) {w : WorkerId} {args : DoneArgs}
    (hs : Step s (.report w args false) s') : s'.coord = s.coord := by
  obtain ⟨hw, hc, hacc⟩ := step_report hs
  obtain ⟨k, task, hk, ht, _⟩ := hH.held hw
  have hkind : args.taskType.kind = some k := by rw [hk, kind_taskType]
  obtain ⟨task', ht', ⟨_, heq⟩ | ⟨heq, _⟩⟩ := report_cases hkind hc
  · exact heq
  · have htrue := (accepts_eq_true hkind ht').mpr heq
    rw [← hacc] at htrue
    cases htrue

/-! ## The two results -/

section Results

variable {files : List String} {nReduce : Nat} {tr : List Event} {s : State}

/-- A completed task is left alone by every later run. -/
theorem completed_run (hrun : Reaches (coordSys files nReduce) tr s) {tr' : List Event} {s' : State}
    (hlater : Run (coordSys files nReduce) s tr' s') {k : Kind} {i : Nat} {task : Task}
    (ht : (s.coord.tasks k)[i]? = some task) (hdone : task.state = .completed) :
    (s'.coord.tasks k)[i]? = some task := by
  induction hlater with
  | nil => exact ht
  | snoc hfirst hs ih => exact completed_step (heldOk (hrun.append hfirst)) hs ih hdone

/-- All reduce tasks are completed only in the last phase. -/
theorem allDone_of_complete (hf : files ≠ []) (hn : 1 ≤ nReduce)
    (hrun : Reaches (coordSys files nReduce) tr s) (hcomp : s.coord.Complete .reduce) :
    s.coord.phase = .allDone := by
  cases hp : s.coord.phase with
  | map =>
      -- the reduce table is not empty, and in the map phase its tasks are idle
      have hlt : 0 < (s.coord.tasks .reduce).length := by
        rw [(tasks_length hrun).2]
        exact hn
      have ht := List.getElem?_eq_getElem hlt
      have hidle := ((phaseOk hrun).mapPhase hp ht).1
      rw [Complete.get hcomp ht] at hidle
      cases hidle
  | reduce => exact absurd hcomp (open_of_reaches hf hn hrun (by rw [hp]; rfl))
  | allDone => rfl

/-- **Phase safety of the coordinator.** In every reachable state: the next step moves the phase forward by one or not
at all; in the map phase no reduce task has been touched; after it every map task is completed; the last phase is
exactly when every reduce task is completed; completed tasks never change; and a phase that is not the last has a task
left to complete. -/
theorem phase_safety (hf : files ≠ []) (hn : 1 ≤ nReduce) (hrun : Reaches (coordSys files nReduce) tr s) :
    (∀ e s', Step s e s' → PhaseMove s.coord.phase s'.coord.phase)
    ∧ (s.coord.phase = .map → ∀ task ∈ s.coord.reduceTasks, task.state = .idle ∧ task.attempt = 0)
    ∧ (s.coord.phase ≠ .map → ∀ task ∈ s.coord.mapTasks, task.state = .completed)
    ∧ (s.coord.phase = .allDone ↔ ∀ task ∈ s.coord.reduceTasks, task.state = .completed)
    ∧ (∀ tr' s', Run (coordSys files nReduce) s tr' s' → ∀ k (i : Nat) task,
        (s.coord.tasks k)[i]? = some task → task.state = .completed → (s'.coord.tasks k)[i]? = some task)
    ∧ (s.coord.phase = .map → ∃ task ∈ s.coord.mapTasks, task.state ≠ .completed)
    ∧ (s.coord.phase = .reduce → ∃ task ∈ s.coord.reduceTasks, task.state ≠ .completed) := by
  have hH := heldOk hrun
  have hP := phaseOk hrun
  have hopen : ∀ {k : Kind}, s.coord.phase.kind = some k → ∃ task ∈ s.coord.tasks k, task.state ≠ .completed := by
    intro k hk
    have hnot := open_of_reaches hf hn hrun hk
    unfold Coordinator.Complete at hnot
    push Not at hnot
    exact hnot
  refine ⟨fun e s' hs => phaseMove_of_step hH hP hs, ?_, hP.afterMap, ?_, ?_, ?_, ?_⟩
  · intro hmap task hmem
    obtain ⟨i, ht⟩ := List.mem_iff_getElem?.mp hmem
    exact hP.mapPhase hmap ht
  · exact ⟨hP.allDone, allDone_of_complete hf hn hrun⟩
  · intro tr' s' hlater k i task ht hdone
    exact completed_run hrun hlater ht hdone
  · intro hmap
    exact hopen (k := .map) (by rw [hmap]; rfl)
  · intro hred
    exact hopen (k := .reduce) (by rw [hred]; rfl)

/-- **Attempt accounting.** No attempt of a task is handed out twice; a task's record says how often it was handed
out; a completed task had exactly one report accepted, that of its last hand-out; a report that is not accepted
changes nothing; and in a run without expiries that reaches the last phase every task was handed out exactly once. -/
theorem attempt_accounting (hrun : Reaches (coordSys files nReduce) tr s) :
    (∀ k i attempt, (handouts tr k i).count attempt ≤ 1)
    ∧ (∀ k (i : Nat) task, (s.coord.tasks k)[i]? = some task →
        (handouts tr k i).length = task.attempt + if task.state = .idle then 0 else 1)
    ∧ (∀ k (i : Nat) task, (s.coord.tasks k)[i]? = some task → task.state = .completed →
        acceptances tr k i = [task.attempt] ∧ (handouts tr k i).getLast? = some task.attempt)
    ∧ (∀ w args s', Step s (.report w args false) s' → s'.coord = s.coord)
    ∧ ((∀ now, .tick now true ∉ tr) → s.coord.phase = .allDone →
        ∀ k i, i < (s.coord.tasks k).length → (handouts tr k i).length = 1) := by
  have hH := heldOk hrun
  have hA := accountsOk hrun
  have hP := phaseOk hrun
  refine ⟨?_, ?_, ?_, fun w args s' hs => rejected_unchanged hH hs, ?_⟩
  · intro k i attempt
    cases ht : (s.coord.tasks k)[i]? with
    | none => rw [hA.absent ht]; simp
    | some task =>
        rw [hA.handed ht]
        exact List.nodup_iff_count_le_one.mp List.nodup_range attempt
  · intro k i task ht
    rw [hA.handed ht, List.length_range]
    rfl
  · intro k i task ht hdone
    constructor
    · rw [hA.accepted ht, if_pos hdone]
    · rw [hA.handed ht, Task.handed, hdone]
      simp [List.range_succ]
  · intro hno hall k i hi
    have ht := List.getElem?_eq_getElem hi
    -- in the last phase both tables are completed
    have hdone : (s.coord.tasks k)[i].state = .completed := by
      cases k with
      | map => exact Complete.get (hP.afterMap (by rw [hall]; decide)) ht
      | reduce => exact Complete.get (hP.allDone hall) ht
    rw [hA.handed ht, List.length_range, Task.handed, attempt_zero hrun hno ht, hdone]
    rfl

end Results

/-- One file, one reduce task: the first worker is too slow, its report comes after the second one's. -/
def lateReportTrace : List Event :=
  [.assign 0 0 ⟨.map, "f", 1, 0, 0⟩, .tick 20000000000 true, .assign 1 20000000000 ⟨.map, "f", 1, 0, 1⟩,
   .report 1 ⟨.map, 0, 1⟩ true, .report 0 ⟨.map, 0, 0⟩ false,
   .assign 1 21000000000 ⟨.reduce, "", 1, 0, 0⟩, .report 1 ⟨.reduce, 0, 0⟩ true]

theorem lateReportTrace_reaches :
    ∃ s, Reaches (coordSys ["f"] 1) lateReportTrace s ∧ decide (s.coord.phase = .allDone) = true :=
  exists_reaches_with (coordSys_computedBy ["f"] 1) _ (by decide)

/-- At its end every reduce task is completed. -/
theorem phase_safety_lateReport :
    ∃ s, Reaches (coordSys ["f"] 1) lateReportTrace s ∧ s.coord.phase = .allDone
      ∧ ∀ task ∈ s.coord.reduceTasks, task.state = .completed := by
  obtain ⟨s, hs, hp⟩ := lateReportTrace_reaches
  have hall : s.coord.phase = .allDone := of_decide_eq_true hp
  have hsafe := phase_safety (by decide) (by decide) hs
  exact ⟨s, hs, hall, hsafe.2.2.2.1.mp hall⟩

/-- The map task was handed out twice, as attempts 0 and 1. -/
theorem attempt_accounting_lateReport :
    ∃ s, Reaches (coordSys ["f"] 1) lateReportTrace s ∧ handouts lateReportTrace .map 0 = [0, 1]
      ∧ ∀ k i attempt, (handouts lateReportTrace k i).count attempt ≤ 1 := by
  obtain ⟨s, hs, _⟩ := lateReportTrace_reaches
  exact ⟨s, hs, by decide, (attempt_accounting hs).1⟩

end MapReduce
end DistributedLabs
