import DistributedLabs.Lib.Transition
import DistributedLabs.MapReduce.Coordinator

/-!
# `MapReduce.Protocol` — the coordinator and its workers

Any number of workers ask for tasks and report them. A worker holds at most one task at a time and reports it
at most once, echoing what it was told; it may take arbitrarily long, and it may crash, which is to forget
the task. Nothing is said here about what a worker does with its task: `MapReduce.Worker` fills that in and
projects onto this system.

The order of the argument: `step_task` says what one step can do to one task; from it come the invariant on
what workers still hold (`HeldOk`: a report that would be accepted is about a task in progress), the invariant
on phases (`PhaseOk`) and the bookkeeping of hand-outs (`AccountsOk`).

A report that a worker has sent and a reply on its way to a worker are not states of their own: the handlers hold the
lock, so a call is one step at the moment its handler runs. A reply that is lost is a worker that crashes right after.
-/

namespace DistributedLabs
namespace MapReduce

open Lib

abbrev WorkerId := Nat

/-- The coordinator, and the task that each worker still has to report. -/
structure State where
  coord : Coordinator
  held : WorkerId → Option DoneArgs

/-- What happens, as an observer of the coordinator sees it. -/
inductive Event where
  | assign (w : WorkerId) (now : Nat) (reply : RPCReply)
  | report (w : WorkerId) (args : DoneArgs) (accepted : Bool)
  | crash (w : WorkerId)
  | tick (now : Nat) (fired : Bool)
deriving DecidableEq, Repr

/-- The report a worker owes after a reply: none if it was told to wait or to exit. -/
def RPCReply.pending (reply : RPCReply) : Option DoneArgs :=
  reply.taskType.kind.map (fun _ => ⟨reply.taskType, reply.taskId, reply.attempt⟩)

/-- Whether a report passes the attempt check. -/
def Coordinator.accepts (c : Coordinator) (args : DoneArgs) : Bool :=
  match args.taskType.kind with
  | some k => ((c.tasks k)[args.taskId]?).any (fun task => task.attempt = args.attempt)
  | none => false

/-- Whether a round of `CheckTimeout` expires a task. -/
def Coordinator.expires (c : Coordinator) (now : Nat) : Bool :=
  match c.phase.kind with
  | some k => (c.tasks k).any (Task.expired now)
  | none => false

/-- One step: a handler's call on behalf of a worker, a crash, or a round of `CheckTimeout`. -/
inductive Step : State → Event → State → Prop where
  | assign {s w now} : s.held w = none →
      Step s (.assign w now (s.coord.assign now).2)
        ⟨(s.coord.assign now).1, Function.update s.held w (s.coord.assign now).2.pending⟩
  | report {s w args coord'} : s.held w = some args → s.coord.reportTaskCompletion args = some coord' →
      Step s (.report w args (s.coord.accepts args)) ⟨coord', Function.update s.held w none⟩
  | crash {s w} : Step s (.crash w) ⟨s.coord, Function.update s.held w none⟩
  | tick {s now} : Step s (.tick now (s.coord.expires now)) ⟨s.coord.checkTimeout now, s.held⟩

/-- A job: the coordinator of the given files, and no worker busy. -/
def coordSys (files : List String) (nReduce : Nat) : LTS State Event where
  init := ⟨makeCoordinator files nReduce, fun _ => none⟩
  step := Step

/-- The step an event names, if it is possible: the executable form of `Step`. -/
def next (s : State) : Event → Option State
  | .assign w now reply =>
      if s.held w = none ∧ reply = (s.coord.assign now).2 then
        some ⟨(s.coord.assign now).1, Function.update s.held w (s.coord.assign now).2.pending⟩
      else none
  | .report w args accepted =>
      if s.held w = some args ∧ accepted = s.coord.accepts args then
        (s.coord.reportTaskCompletion args).map (fun coord' => ⟨coord', Function.update s.held w none⟩)
      else none
  | .crash w => some ⟨s.coord, Function.update s.held w none⟩
  | .tick now fired =>
      if fired = s.coord.expires now then some ⟨s.coord.checkTimeout now, s.held⟩ else none

theorem coordSys_computedBy (files : List String) (nReduce : Nat) :
    (coordSys files nReduce).ComputedBy next := by
  intro s e s'
  constructor
  · intro h
    change Step s e s' at h
    cases h with
    | assign hw => simp [next, hw]
    | report hw hc => simp [next, hw, hc]
    | crash => rfl
    | tick => simp [next]
  · intro h
    cases e with
    | assign w now reply =>
        simp only [next, Option.ite_none_right_eq_some, Option.some.injEq] at h
        obtain ⟨⟨hw, rfl⟩, rfl⟩ := h
        exact Step.assign hw
    | report w args accepted =>
        simp only [next, Option.ite_none_right_eq_some, Option.map_eq_some_iff] at h
        obtain ⟨⟨hw, rfl⟩, coord', hc, rfl⟩ := h
        exact Step.report hw hc
    | crash w =>
        obtain rfl := Option.some.inj h
        exact Step.crash
    | tick now fired =>
        simp only [next, Option.ite_none_right_eq_some, Option.some.injEq] at h
        obtain ⟨rfl, rfl⟩ := h
        exact Step.tick

/-! ## Reading a trace -/

/-- The attempt of a task that an event hands out. -/
def Event.handout (k : Kind) (i : Nat) : Event → Option Nat
  | .assign _ _ reply => if reply.taskType = k.taskType ∧ reply.taskId = i then some reply.attempt else none
  | _ => none

/-- The attempt of a task whose report an event accepts. -/
def Event.acceptance (k : Kind) (i : Nat) : Event → Option Nat
  | .report _ args true => if args.taskType = k.taskType ∧ args.taskId = i then some args.attempt else none
  | _ => none

/-- The attempts of a task that have been handed out, oldest first. -/
def handouts (tr : List Event) (k : Kind) (i : Nat) : List Nat := tr.filterMap (Event.handout k i)

/-- The attempts of a task whose reports were accepted, oldest first. -/
def acceptances (tr : List Event) (k : Kind) (i : Nat) : List Nat := tr.filterMap (Event.acceptance k i)

theorem handouts_snoc (tr : List Event) (e : Event) (k : Kind) (i : Nat) :
    handouts (tr ++ [e]) k i = handouts tr k i ++ (e.handout k i).toList :=
  filterMap_snoc (Event.handout k i) tr e

theorem acceptances_snoc (tr : List Event) (e : Event) (k : Kind) (i : Nat) :
    acceptances (tr ++ [e]) k i = acceptances tr k i ++ (e.acceptance k i).toList :=
  filterMap_snoc (Event.acceptance k i) tr e

/-! ## What one step can do to one task -/

/-- How a task comes out of a step. -/
inductive TaskMove (s : State) (k : Kind) (i : Nat) (task : Task) : Event → Task → Prop where
  | same {e} : e.handout k i = none → e.acceptance k i = none → TaskMove s k i task e task
  | started {w now} : s.coord.phase.kind = some k → task.state = .idle →
      TaskMove s k i task (.assign w now (s.coord.taskReply k task i)) (task.start now)
  | completed {w} : s.held w = some ⟨k.taskType, i, task.attempt⟩ →
      TaskMove s k i task (.report w ⟨k.taskType, i, task.attempt⟩ true) task.complete
  | expired {now} : s.coord.phase.kind = some k → task.state = .inProgress →
      TaskMove s k i task (.tick now true) { task with state := .idle, attempt := task.attempt + 1 }

theorem taskType_inj {k k' : Kind} (h : k.taskType = k'.taskType) : k = k' := by
  cases k <;> cases k' <;> first | rfl | cases h

theorem accepts_eq_true {c : Coordinator} {k : Kind} {args : DoneArgs} {task : Task}
    (hk : args.taskType.kind = some k) (ht : (c.tasks k)[args.taskId]? = some task) :
    c.accepts args = true ↔ task.attempt = args.attempt := by
  simp [Coordinator.accepts, hk, ht]

theorem acceptance_rejected {w : WorkerId} {args : DoneArgs} {b : Bool} {k : Kind} {i : Nat}
    (hb : b = false) : (Event.report w args b).acceptance k i = none := by
  subst hb
  rfl

section StepTask

variable {s s' : State} {k : Kind} {i : Nat} {task : Task}

theorem assign_task {w : WorkerId} {now : Nat} (ht : (s.coord.tasks k)[i]? = some task) :
    ∃ task', ((s.coord.assign now).1.tasks k)[i]? = some task'
      ∧ TaskMove s k i task (.assign w now (s.coord.assign now).2) task' := by
  rcases assign_cases s.coord now with ⟨k₀, task₀, i₀, hk₀, hi₀, hidle, hc, hreply⟩ | ⟨hc, hreply⟩
  · rw [hc, hreply]
    by_cases hk : k = k₀
    · subst hk
      rw [setTasks_self]
      by_cases hi : i = i₀
      · subst hi
        obtain rfl := Option.some.inj (hi₀.symm.trans ht)
        refine ⟨task₀.start now, ?_, .started hk₀ hidle⟩
        exact List.getElem?_set_self (List.getElem?_eq_some_iff.mp ht).1
      · refine ⟨task, by rw [List.getElem?_set_ne (Ne.symm hi)]; exact ht, .same ?_ rfl⟩
        simp [Event.handout, Coordinator.taskReply, Ne.symm hi]
    · refine ⟨task, by rw [setTasks_ne _ _ hk]; exact ht, .same ?_ rfl⟩
      have hne : k₀.taskType ≠ k.taskType := fun h => hk (taskType_inj h).symm
      simp [Event.handout, Coordinator.taskReply, hne]
  · refine ⟨task, by rw [hc]; exact ht, .same ?_ rfl⟩
    have hne : (s.coord.assign now).2.taskType ≠ k.taskType := by
      intro heq
      rw [heq, kind_taskType] at hreply
      cases hreply
    simp [Event.handout, hne]

theorem report_task {w : WorkerId} {args : DoneArgs} {coord' : Coordinator}
    (hw : s.held w = some args) (hc : s.coord.reportTaskCompletion args = some coord')
    (ht : (s.coord.tasks k)[i]? = some task) :
    ∃ task', (coord'.tasks k)[i]? = some task'
      ∧ TaskMove s k i task (.report w args (s.coord.accepts args)) task' := by
  cases hkind : args.taskType.kind with
  | none =>
      -- not a report about a task at all
      obtain rfl := Option.some.inj ((report_of_none hkind).symm.trans hc)
      refine ⟨task, ht, .same rfl (acceptance_rejected ?_)⟩
      simp [Coordinator.accepts, hkind]
  | some k₀ =>
      obtain ⟨task₀, ht₀, hcases⟩ := report_cases hkind hc
      have hacc := accepts_eq_true hkind ht₀
      rcases hcases with ⟨hne, rfl⟩ | ⟨heq, htasks, _⟩
      · refine ⟨task, ht, .same rfl (acceptance_rejected ?_)⟩
        rwa [← Bool.not_eq_true, hacc]
      · rw [htasks, hacc.mpr heq]
        have htype := taskType_of_kind hkind
        by_cases hk : k = k₀
        · subst hk
          rw [setTasks_self]
          by_cases hi : i = args.taskId
          · subst hi
            obtain rfl := Option.some.inj (ht₀.symm.trans ht)
            obtain ⟨type, id, attempt⟩ := args
            subst htype heq
            refine ⟨task₀.complete, ?_, .completed hw⟩
            exact List.getElem?_set_self (List.getElem?_eq_some_iff.mp ht).1
          · refine ⟨task, by rw [List.getElem?_set_ne (Ne.symm hi)]; exact ht, .same rfl ?_⟩
            simp [Event.acceptance, Ne.symm hi]
        · refine ⟨task, by rw [setTasks_ne _ _ hk]; exact ht, .same rfl ?_⟩
          have hne : k₀.taskType ≠ k.taskType := fun h => hk (taskType_inj h).symm
          simp [Event.acceptance, htype, hne]

/-- What a round of `CheckTimeout` does to one task. -/
theorem tick_task {now : Nat} (ht : (s.coord.tasks k)[i]? = some task) :
    ∃ task', ((s.coord.checkTimeout now).tasks k)[i]? = some task'
      ∧ TaskMove s k i task (.tick now (s.coord.expires now)) task' := by
  rw [checkTimeout_tasks]
  by_cases hk : s.coord.phase.kind = some k
  · rw [if_pos hk]
    refine ⟨task.expire now, by simp [expireTasksLocked, ht], ?_⟩
    unfold Task.expire
    by_cases hexp : task.expired now = true
    · have hfired : s.coord.expires now = true := by
        simp only [Coordinator.expires, hk, List.any_eq_true]
        exact ⟨task, List.mem_of_getElem? ht, hexp⟩
      rw [if_pos hexp, hfired]
      refine .expired hk ?_
      unfold Task.expired at hexp
      exact (of_decide_eq_true hexp).1
    · rw [if_neg hexp]
      exact .same rfl rfl
  · rw [if_neg hk]
    exact ⟨task, ht, .same rfl rfl⟩

/-- Each step moves each task in one of the four ways. -/
theorem step_task {e : Event} (h : Step s e s') (ht : (s.coord.tasks k)[i]? = some task) :
    ∃ task', (s'.coord.tasks k)[i]? = some task' ∧ TaskMove s k i task e task' := by
  cases h with
  | assign _ => exact assign_task ht
  | report hw hc => exact report_task hw hc ht
  | crash => exact ⟨task, ht, .same rfl rfl⟩
  | tick => exact tick_task ht

end StepTask

/-- A report is the handler's work on something a worker held. -/
theorem step_report {s s' : State} {w : WorkerId} {args : DoneArgs} {accepted : Bool}
    (h : Step s (.report w args accepted) s') :
    s.held w = some args ∧ s.coord.reportTaskCompletion args = some s'.coord
      ∧ accepted = s.coord.accepts args := by
  generalize he : Event.report w args accepted = e at h
  cases h with
  | report hw hc =>
      obtain ⟨rfl, rfl, rfl⟩ := Event.report.inj he
      exact ⟨hw, hc, rfl⟩
  | assign _ => cases he
  | crash => cases he
  | tick => cases he

/-- The tables keep their sizes. -/
theorem step_length {s s' : State} {e : Event} (h : Step s e s') (k : Kind) :
    (s'.coord.tasks k).length = (s.coord.tasks k).length := by
  cases h with
  | @assign w now _ =>
      rcases assign_cases s.coord now with ⟨k₀, task₀, i₀, _, _, _, hc, _⟩ | ⟨hc, _⟩
      · rw [hc]
        by_cases hk : k = k₀
        · subst hk
          rw [setTasks_self, List.length_set]
        · rw [setTasks_ne _ _ hk]
      · rw [hc]
  | @report w args coord' _ hc =>
      cases hkind : args.taskType.kind with
      | none =>
          rw [← Option.some.inj ((report_of_none hkind).symm.trans hc)]
      | some k₀ =>
          obtain ⟨task₀, _, ⟨_, rfl⟩ | ⟨_, htasks, _⟩⟩ := report_cases hkind hc
          · rfl
          · rw [htasks]
            by_cases hk : k = k₀
            · subst hk
              rw [setTasks_self, List.length_set]
            · rw [setTasks_ne _ _ hk]
  | crash => rfl
  | @tick now =>
      rw [checkTimeout_tasks]
      split
      · exact List.length_map _
      · rfl

/-- The same read backwards: every task after a step is one from before it. -/
theorem step_task_back {s s' : State} {e : Event} (h : Step s e s') {k : Kind} {i : Nat} {task' : Task}
    (ht' : (s'.coord.tasks k)[i]? = some task') :
    ∃ task, (s.coord.tasks k)[i]? = some task ∧ TaskMove s k i task e task' := by
  have hlt : i < (s.coord.tasks k).length := by
    rw [← step_length h k]
    exact (List.getElem?_eq_some_iff.mp ht').1
  have ht := List.getElem?_eq_getElem hlt
  obtain ⟨task'', ht'', hmove⟩ := step_task h ht
  obtain rfl := Option.some.inj (ht''.symm.trans ht')
  exact ⟨_, ht, hmove⟩

/-! ## What a job is about does not change -/

/-- The files of the tasks are the files of the job, and the number of reduce tasks is the job's. -/
structure TablesOk (files : List String) (nReduce : Nat) (c : Coordinator) : Prop where
  nReduce_eq : c.nReduce = nReduce
  file : ∀ {i : Nat} {task : Task}, (c.tasks .map)[i]? = some task → files[i]? = some task.file

theorem TaskMove.file_eq {s : State} {k : Kind} {i : Nat} {task task' : Task} {e : Event}
    (h : TaskMove s k i task e task') : task'.file = task.file := by
  cases h <;> rfl

theorem step_nReduce {s s' : State} {e : Event} (h : Step s e s') : s'.coord.nReduce = s.coord.nReduce := by
  cases h with
  | @assign w now _ =>
      rcases assign_cases s.coord now with ⟨k, task, i, _, _, _, hc, _⟩ | ⟨hc, _⟩
      · show (s.coord.assign now).1.nReduce = s.coord.nReduce
        rw [hc, setTasks_nReduce]
      · show (s.coord.assign now).1.nReduce = s.coord.nReduce
        rw [hc]
  | report _ hc => exact report_nReduce hc
  | crash => rfl
  | tick => exact checkTimeout_nReduce _ _

/-- In every reachable state the tables are about the job. -/
theorem tablesOk {files : List String} {nReduce : Nat} {tr : List Event} {s : State}
    (h : Reaches (coordSys files nReduce) tr s) : TablesOk files nReduce s.coord := by
  refine Reaches.invariant (P := fun _ s => TablesOk files nReduce s.coord) ?_ ?_ h
  · refine ⟨rfl, fun {i task} ht => ?_⟩
    change (files.map (fun file => ({ file := file } : Task)))[i]? = some task at ht
    rw [List.getElem?_map] at ht
    obtain ⟨file, hfile, rfl⟩ := Option.map_eq_some_iff.mp ht
    exact hfile
  · intro _ s e s' _ ih hs
    refine ⟨(step_nReduce hs).trans ih.nReduce_eq, fun {i task'} ht' => ?_⟩
    obtain ⟨task, ht, hmove⟩ := step_task_back hs ht'
    rw [hmove.file_eq]
    exact ih.file ht

end MapReduce
end DistributedLabs
