import Mathlib.Data.List.Basic

/-!
# `MapReduce.Coordinator` — the coordinator's handlers

The task tables and the three things that happen to them under the coordinator's lock: `Assign`,
`ReportTaskCompletion` and one round of `CheckTimeout`. The two tables are treated alike, so each handler is
written once over a table (`Kind`) and used for both.

Time is a number of nanoseconds; every handler that reads the clock gets it as an argument. The attempt
counter is a natural number: it grows by one at most once in ten seconds, so an `int` does not overflow. An
index outside a table is a panic, which is `none` here.

Each handler comes with one lemma that says everything it can do to a task (`assign_cases`,
`report_cases`, `checkTimeout_tasks`); later modules use those and never unfold a handler.
-/

namespace DistributedLabs
namespace MapReduce

/-! ## Tasks and messages -/

/-- `TaskState`. -/
inductive TaskState where
  | idle
  | inProgress
  | completed
deriving DecidableEq, Repr

/-- `Phase`: which of the two tables is being worked on, or that both are finished. -/
inductive Phase where
  | map
  | reduce
  | allDone
deriving DecidableEq, Repr

/-- `Task`. The attempt number goes up each time the task is taken from a worker. -/
structure Task where
  file : String := ""
  state : TaskState := .idle
  startTime : Nat := 0
  attempt : Nat := 0
deriving DecidableEq, Repr

/-- `Coordinator`, without the lock: every handler holds it from start to end. -/
structure Coordinator where
  phase : Phase
  nMap : Nat
  nReduce : Nat
  mapTasks : List Task
  reduceTasks : List Task
deriving DecidableEq, Repr

/-- `TaskType`: a kind of task, or what a worker is told when there is none for it. -/
inductive TaskType where
  | map
  | reduce
  | wait
  | exit
deriving DecidableEq, Repr

/-- `RPCReply`: the reply to a worker that asks for a task. -/
structure RPCReply where
  taskType : TaskType
  mapFile : String := ""
  nReduce : Nat := 0
  taskId : Nat := 0
  attempt : Nat := 0
deriving DecidableEq, Repr

/-- `DoneArgs`: what a worker echoes when it reports its task. -/
structure DoneArgs where
  taskType : TaskType
  taskId : Nat
  attempt : Nat
deriving DecidableEq, Repr

/-! ## The two tables -/

/-- The two tables. -/
inductive Kind where
  | map
  | reduce
deriving DecidableEq, Repr

/-- How a message names a table. -/
def Kind.taskType : Kind → TaskType
  | .map => .map
  | .reduce => .reduce

/-- The table a message names. -/
def TaskType.kind : TaskType → Option Kind
  | .map => some .map
  | .reduce => some .reduce
  | .wait => none
  | .exit => none

/-- The table a phase works on. -/
def Phase.kind : Phase → Option Kind
  | .map => some .map
  | .reduce => some .reduce
  | .allDone => none

/-- The phase that begins when a table is completed. -/
def Kind.nextPhase : Kind → Phase
  | .map => .reduce
  | .reduce => .allDone

def Coordinator.tasks (c : Coordinator) : Kind → List Task
  | .map => c.mapTasks
  | .reduce => c.reduceTasks

/-- The coordinator with a table replaced. -/
def Coordinator.setTasks (c : Coordinator) : Kind → List Task → Coordinator
  | .map, tasks => { c with mapTasks := tasks }
  | .reduce, tasks => { c with reduceTasks := tasks }

@[simp] theorem setTasks_self (c : Coordinator) (k : Kind) (tasks : List Task) :
    (c.setTasks k tasks).tasks k = tasks := by
  cases k <;> rfl

@[simp] theorem setTasks_ne (c : Coordinator) {k k' : Kind} (tasks : List Task) (h : k' ≠ k) :
    (c.setTasks k tasks).tasks k' = c.tasks k' := by
  cases k <;> cases k' <;> first | rfl | exact absurd rfl h

@[simp] theorem setTasks_phase (c : Coordinator) (k : Kind) (tasks : List Task) :
    (c.setTasks k tasks).phase = c.phase := by
  cases k <;> rfl

@[simp] theorem setTasks_nReduce (c : Coordinator) (k : Kind) (tasks : List Task) :
    (c.setTasks k tasks).nReduce = c.nReduce := by
  cases k <;> rfl

@[simp] theorem tasks_setPhase (c : Coordinator) (p : Phase) (k : Kind) :
    ({ c with phase := p } : Coordinator).tasks k = c.tasks k := by
  cases k <;> rfl

@[simp] theorem kind_taskType (k : Kind) : k.taskType.kind = some k := by
  cases k <;> rfl

theorem taskType_of_kind {t : TaskType} {k : Kind} (h : t.kind = some k) : t = k.taskType := by
  cases t <;> cases h <;> rfl

/-! ## The handlers -/

/-- The loop of `Assign` over one table: the first idle task, with its index. -/
def firstIdle (tasks : List Task) : Option (Task × Nat) :=
  tasks.zipIdx.find? (fun p => p.1.state = .idle)

/-- A task that is handed out. -/
def Task.start (now : Nat) (task : Task) : Task := { task with state := .inProgress, startTime := now }

/-- A task whose report is accepted. -/
def Task.complete (task : Task) : Task := { task with state := .completed }

/-- The `MapFile` of a reply; only map tasks have one. -/
def Kind.mapFile : Kind → Task → String
  | .map, task => task.file
  | .reduce, _ => ""

/-- What a worker is told of the task it gets. -/
def Coordinator.taskReply (c : Coordinator) (k : Kind) (task : Task) (i : Nat) : RPCReply where
  taskType := k.taskType
  mapFile := k.mapFile task
  nReduce := c.nReduce
  taskId := i
  attempt := task.attempt

/-- `Assign` in a phase that has a table: hand out the first idle task, or let the worker wait. -/
def Coordinator.assignFrom (c : Coordinator) (k : Kind) (now : Nat) : Coordinator × RPCReply :=
  match firstIdle (c.tasks k) with
  | some (task, i) =>
      (c.setTasks k ((c.tasks k).set i (task.start now)), c.taskReply k task i)
  | none => (c, { taskType := .wait })

/-- `Assign`: the `switch` over the phases. -/
def Coordinator.assign (c : Coordinator) (now : Nat) : Coordinator × RPCReply :=
  match c.phase with
  | .map => c.assignFrom .map now
  | .reduce => c.assignFrom .reduce now
  | .allDone => (c, { taskType := .exit })

/-- `ReportTaskCompletion` on one table. The handler looks at the attempt number alone, and when the whole
    table is completed it sets the phase whatever the phase was. -/
def Coordinator.reportTo (c : Coordinator) (k : Kind) (args : DoneArgs) : Option Coordinator :=
  match (c.tasks k)[args.taskId]? with
  | none => none
  | some task =>
      if task.attempt ≠ args.attempt then some c
      else
        let tasks := (c.tasks k).set args.taskId task.complete
        if tasks.all (fun task => task.state = .completed) then
          some { c.setTasks k tasks with phase := k.nextPhase }
        else some (c.setTasks k tasks)

/-- `ReportTaskCompletion`: the `switch` over the task types. -/
def Coordinator.reportTaskCompletion (c : Coordinator) (args : DoneArgs) : Option Coordinator :=
  match args.taskType with
  | .map => c.reportTo .map args
  | .reduce => c.reportTo .reduce args
  | .wait => some c
  | .exit => some c

def Coordinator.done (c : Coordinator) : Bool := c.phase = .allDone

/-- `10 * time.Second`. -/
def taskTimeout : Nat := 10 * 1000000000

/-- A task is expired when it has been in progress for longer than the timeout. -/
def Task.expired (now : Nat) (task : Task) : Bool :=
  task.state = .inProgress ∧ now - task.startTime > taskTimeout

/-- An expired task becomes idle again, under the next attempt number. -/
def Task.expire (now : Nat) (task : Task) : Task :=
  if task.expired now then { task with state := .idle, attempt := task.attempt + 1 } else task

def expireTasksLocked (now : Nat) (tasks : List Task) : List Task := tasks.map (Task.expire now)

/-- One round of `CheckTimeout`. -/
def Coordinator.checkTimeout (c : Coordinator) (now : Nat) : Coordinator :=
  match c.phase with
  | .map => c.setTasks .map (expireTasksLocked now c.mapTasks)
  | .reduce => c.setTasks .reduce (expireTasksLocked now c.reduceTasks)
  | .allDone => c

/-- `MakeCoordinator`: a map task for every file and `nReduce` reduce tasks, all idle. -/
def makeCoordinator (files : List String) (nReduce : Nat) : Coordinator where
  phase := .map
  nMap := files.length
  nReduce := nReduce
  mapTasks := files.map (fun file => { file := file })
  reduceTasks := List.replicate nReduce {}

/-! ## What the handlers do, once and for all -/

theorem makeCoordinator_task {files : List String} {nReduce : Nat} {k : Kind} {i : Nat} {task : Task}
    (ht : ((makeCoordinator files nReduce).tasks k)[i]? = some task) : task.state = .idle ∧ task.attempt = 0 := by
  have hmem := List.mem_of_getElem? ht
  cases k with
  | map =>
      obtain ⟨file, _, rfl⟩ := List.mem_map.mp hmem
      exact ⟨rfl, rfl⟩
  | reduce =>
      obtain rfl := (List.mem_replicate.mp hmem).2
      exact ⟨rfl, rfl⟩

theorem firstIdle_some {tasks : List Task} {task : Task} {i : Nat} (h : firstIdle tasks = some (task, i)) :
    tasks[i]? = some task ∧ task.state = .idle := by
  unfold firstIdle at h
  have hmem := List.mem_of_find?_eq_some h
  have hidle := List.find?_some h
  exact ⟨List.mem_zipIdx_iff_getElem?.mp hmem, by simpa using hidle⟩

/-- `Assign` starts an idle task of the phase's table, or changes nothing and hands out nothing. -/
theorem assign_cases (c : Coordinator) (now : Nat) :
    (∃ k task i, c.phase.kind = some k ∧ (c.tasks k)[i]? = some task ∧ task.state = .idle
      ∧ (c.assign now).1 = c.setTasks k ((c.tasks k).set i (task.start now))
      ∧ (c.assign now).2 = c.taskReply k task i)
    ∨ ((c.assign now).1 = c ∧ (c.assign now).2.taskType.kind = none) := by
  have hfrom : ∀ k, c.phase.kind = some k → c.assign now = c.assignFrom k now := by
    intro k hk
    unfold Coordinator.assign
    cases hp : c.phase <;> rw [hp] at hk <;> cases hk <;> rfl
  cases hk : c.phase.kind with
  | none =>
      right
      have hp : c.phase = .allDone := by
        cases hp : c.phase <;> rw [hp] at hk <;> first | rfl | cases hk
      simp [Coordinator.assign, hp, TaskType.kind]
  | some k =>
      rw [hfrom k hk]
      unfold Coordinator.assignFrom
      cases hf : firstIdle (c.tasks k) with
      | none => exact Or.inr ⟨rfl, rfl⟩
      | some p =>
          obtain ⟨task, i⟩ := p
          obtain ⟨hi, hidle⟩ := firstIdle_some hf
          exact Or.inl ⟨k, task, i, rfl, hi, hidle, rfl, rfl⟩

/-- The table is completed. -/
def Coordinator.Complete (c : Coordinator) (k : Kind) : Prop := ∀ task ∈ c.tasks k, task.state = .completed

instance (c : Coordinator) (k : Kind) : Decidable (c.Complete k) :=
  inferInstanceAs (Decidable (∀ task ∈ c.tasks k, task.state = .completed))

theorem report_of_kind {c : Coordinator} {args : DoneArgs} {k : Kind} (hk : args.taskType.kind = some k) :
    c.reportTaskCompletion args = c.reportTo k args := by
  unfold Coordinator.reportTaskCompletion
  cases ht : args.taskType <;> rw [ht] at hk <;> cases hk <;> rfl

/-- A report that names no table is ignored. -/
theorem report_of_none {c : Coordinator} {args : DoneArgs} (hk : args.taskType.kind = none) :
    c.reportTaskCompletion args = some c := by
  unfold Coordinator.reportTaskCompletion
  cases ht : args.taskType with
  | map => rw [ht] at hk; cases hk
  | reduce => rw [ht] at hk; cases hk
  | wait => rfl
  | exit => rfl

/-- A report that names a task is rejected and changes nothing, or completes the task and, if that
    completes the table, begins the next phase. -/
theorem report_cases {c c' : Coordinator} {args : DoneArgs} {k : Kind} (hk : args.taskType.kind = some k)
    (h : c.reportTaskCompletion args = some c') :
    ∃ task, (c.tasks k)[args.taskId]? = some task
      ∧ ((task.attempt ≠ args.attempt ∧ c' = c)
        ∨ (task.attempt = args.attempt
          ∧ (∀ k', c'.tasks k' = (c.setTasks k ((c.tasks k).set args.taskId task.complete)).tasks k')
          ∧ ((c'.Complete k ∧ c'.phase = k.nextPhase) ∨ (¬ c'.Complete k ∧ c'.phase = c.phase)))) := by
  rw [report_of_kind hk] at h
  unfold Coordinator.reportTo at h
  cases htask : (c.tasks k)[args.taskId]? with
  | none => simp [htask] at h
  | some task =>
      refine ⟨task, rfl, ?_⟩
      by_cases hatt : task.attempt = args.attempt
      · right
        refine ⟨hatt, ?_⟩
        simp only [htask, hatt, ne_eq, not_true_eq_false, if_false] at h
        -- the rescan of the table decides on the phase
        split at h
        · rename_i hall
          obtain rfl := Option.some.inj h
          refine ⟨fun k' => tasks_setPhase _ _ k', Or.inl ⟨?_, rfl⟩⟩
          intro task' hmem
          rw [tasks_setPhase, setTasks_self] at hmem
          have := List.all_eq_true.mp hall task' hmem
          simpa using this
        · rename_i hall
          obtain rfl := Option.some.inj h
          refine ⟨fun k' => rfl, Or.inr ⟨fun hcomp => hall ?_, setTasks_phase _ _ _⟩⟩
          rw [List.all_eq_true]
          intro task' hmem
          have hdone := hcomp task' (by rw [setTasks_self]; exact hmem)
          simpa using hdone
      · left
        simp only [htask, ne_eq, hatt, not_false_eq_true, if_true] at h
        exact ⟨hatt, (Option.some.inj h).symm⟩

/-- A report about a task of a table does not panic. -/
theorem report_isSome {c : Coordinator} {args : DoneArgs} {k : Kind} (hk : args.taskType.kind = some k)
    (hlt : args.taskId < (c.tasks k).length) : (c.reportTaskCompletion args).isSome = true := by
  rw [report_of_kind hk]
  unfold Coordinator.reportTo
  rw [List.getElem?_eq_getElem hlt]
  dsimp only
  split
  · rfl
  · split <;> rfl

/-- A report does not change the number of reduce tasks. -/
theorem report_nReduce {c c' : Coordinator} {args : DoneArgs} (h : c.reportTaskCompletion args = some c') :
    c'.nReduce = c.nReduce := by
  cases hkind : args.taskType.kind with
  | none => rw [← Option.some.inj ((report_of_none hkind).symm.trans h)]
  | some k =>
      rw [report_of_kind hkind] at h
      unfold Coordinator.reportTo at h
      split at h
      · cases h
      · split at h
        · rw [← Option.some.inj h]
        · dsimp only at h
          split at h <;> rw [← Option.some.inj h] <;> exact setTasks_nReduce ..

/-- One round of `CheckTimeout` expires tasks of the phase's table and touches nothing else. -/
theorem checkTimeout_tasks (c : Coordinator) (now : Nat) (k : Kind) :
    (c.checkTimeout now).tasks k
      = if c.phase.kind = some k then expireTasksLocked now (c.tasks k) else c.tasks k := by
  unfold Coordinator.checkTimeout
  cases hp : c.phase <;> cases k <;> simp [Phase.kind, Coordinator.tasks, Coordinator.setTasks]

@[simp] theorem checkTimeout_nReduce (c : Coordinator) (now : Nat) :
    (c.checkTimeout now).nReduce = c.nReduce := by
  unfold Coordinator.checkTimeout
  cases hp : c.phase <;> simp

@[simp] theorem checkTimeout_phase (c : Coordinator) (now : Nat) : (c.checkTimeout now).phase = c.phase := by
  unfold Coordinator.checkTimeout
  cases hp : c.phase <;> simp [hp]

end MapReduce
end DistributedLabs
