import DistributedLabs.MapReduce.CoordinatorSafety

/-!
# `MapReduce.Replay` — a completion report that is delivered twice

A report that was accepted is about a task that is completed for good, so a second delivery passes the attempt
check again, completes the completed task, and rescans the table. What it can still change is the phase
(`replay_result`): the handler assigns it whenever the table it names is completed. For the reduce table this
is the phase the job is in anyway. For the map table it is the reduce phase, also when the job has already
left it.

A worker of this program calls `ReportTaskCompletion` once and does not repeat the call, so a second delivery
is not a step of `coordSys`; `replay_unchanged_iff` is about the handler, called once more in a reachable state.
`replayed_map_report_undoes` is the case that changes something: a job that was done is not done any more.
-/

namespace DistributedLabs
namespace MapReduce

open Lib

/-- A list with a value written back where it already stands. -/
theorem set_getElem?_self {α : Type} {l : List α} {i : Nat} {a : α} (h : l[i]? = some a) : l.set i a = l := by
  obtain ⟨hi, rfl⟩ := List.getElem?_eq_some_iff.mp h
  exact List.set_getElem_self hi

theorem setTasks_tasks (c : Coordinator) (k : Kind) : c.setTasks k (c.tasks k) = c := by
  cases k <;> rfl

theorem complete_of_completed {task : Task} (h : task.state = .completed) : task.complete = task := by
  cases task
  subst h
  rfl

/-- What a report about a completed task does: nothing to the tables, and the phase is assigned if the table
    is completed. -/
theorem replay_result {c : Coordinator} {k : Kind} {args : DoneArgs} {task : Task}
    (hk : args.taskType.kind = some k) (ht : (c.tasks k)[args.taskId]? = some task)
    (hdone : task.state = .completed) (hatt : task.attempt = args.attempt) :
    c.reportTaskCompletion args
      = some (if c.Complete k then { c with phase := k.nextPhase } else c) := by
  rw [report_of_kind hk]
  unfold Coordinator.reportTo
  rw [ht]
  simp only [hatt, ne_eq, not_true_eq_false, if_false, complete_of_completed hdone, set_getElem?_self ht,
    setTasks_tasks]
  by_cases hc : c.Complete k
  · rw [if_pos hc, if_pos]
    rw [List.all_eq_true]
    intro task' hmem
    simpa using hc task' hmem
  · rw [if_neg hc, if_neg]
    intro hall
    refine hc (fun task' hmem => ?_)
    simpa using List.all_eq_true.mp hall task' hmem

section Replay

variable {files : List String} {nReduce : Nat} {tr : List Event} {s : State}

/-- An event that is in the trace is counted among the acceptances of its task. -/
theorem acceptance_mem {w : WorkerId} {args : DoneArgs} {k : Kind} (hk : args.taskType = k.taskType)
    (hmem : Event.report w args true ∈ tr) : args.attempt ∈ acceptances tr k args.taskId := by
  refine List.mem_filterMap.mpr ⟨_, hmem, ?_⟩
  simp [Event.acceptance, hk]

/-- Only reports that name a table are accepted. -/
theorem kind_of_accepted (hrun : Reaches (coordSys files nReduce) tr s) {w : WorkerId} {args : DoneArgs}
    (hmem : Event.report w args true ∈ tr) :
    ∃ k, args.taskType = k.taskType ∧ args.taskId < (s.coord.tasks k).length := by
  refine Reaches.invariant (P := fun tr s => Event.report w args true ∈ tr →
    ∃ k, args.taskType = k.taskType ∧ args.taskId < (s.coord.tasks k).length) ?_ ?_ hrun hmem
  · intro h
    cases h
  · intro tr s e s' hrun ih hs hmem
    rcases List.mem_append.mp hmem with hold | hnew
    · obtain ⟨k, hk, hlt⟩ := ih hold
      exact ⟨k, hk, by rwa [step_length hs]⟩
    · obtain rfl := List.mem_singleton.mp hnew
      obtain ⟨k, task, hk, ht, _⟩ := (heldOk hrun).held (step_report hs).1
      refine ⟨k, hk, ?_⟩
      rw [step_length hs]
      exact (List.getElem?_eq_some_iff.mp ht).1

/-- The task of an accepted report is completed, with the attempt of the report. -/
theorem completed_of_accepted (hrun : Reaches (coordSys files nReduce) tr s) {w : WorkerId} {args : DoneArgs}
    (hmem : Event.report w args true ∈ tr) :
    ∃ k task, args.taskType = k.taskType ∧ (s.coord.tasks k)[args.taskId]? = some task
      ∧ task.state = .completed ∧ task.attempt = args.attempt := by
  obtain ⟨k, hk, hlt⟩ := kind_of_accepted hrun hmem
  have ht := List.getElem?_eq_getElem hlt
  have hacc := acceptance_mem hk hmem
  rw [(accountsOk hrun).accepted ht] at hacc
  refine ⟨k, _, hk, ht, ?_⟩
  split at hacc
  · rename_i hdone
    exact ⟨hdone, (List.mem_singleton.mp hacc).symm⟩
  · cases hacc

/-- In the map phase a map task is left to complete, whatever the number of reduce tasks. -/
theorem map_open (hf : files ≠ []) (hrun : Reaches (coordSys files nReduce) tr s)
    (hmap : s.coord.phase = .map) : ¬ s.coord.Complete .map := by
  refine Reaches.invariant (P := fun _ s => s.coord.phase = .map → ¬ s.coord.Complete .map) ?_ ?_ hrun hmap
  · intro _
    exact open_init hf nReduce rfl
  · intro tr s e s' hrun ih hs hmap'
    have hsame : s'.coord.phase = s.coord.phase := by
      rcases step_phase (heldOk hrun) (phaseOk hrun) hs with hsame | ⟨k, _, hnext, _⟩
      · exact hsame
      · rw [hnext] at hmap'
        cases k <;> cases hmap'
    have hmap : s.coord.phase = .map := hsame.symm.trans hmap'
    have hopen : Open s.coord := by
      intro k hk
      rw [hmap] at hk
      obtain rfl : Kind.map = k := Option.some.inj hk
      exact ih hmap
    exact open_of_same_phase hs hopen hsame (by rw [hmap']; rfl)

/-- The phase assigned by a completed table is the phase the job is in, except that the map table still
    assigns the reduce phase when everything is done. -/
theorem phase_of_complete (hrun : Reaches (coordSys files nReduce) tr s) {k : Kind} {i : Nat} {task : Task}
    (ht : (s.coord.tasks k)[i]? = some task) (hcomp : s.coord.Complete k) :
    s.coord.phase = k.nextPhase ∨ (k = .map ∧ s.coord.phase = .allDone) := by
  have hlt := (List.getElem?_eq_some_iff.mp ht).1
  obtain ⟨hmaps, hreduces⟩ := tasks_length hrun
  have hfiles : files ≠ [] := by
    rintro rfl
    have hmap := no_files rfl hrun
    cases k with
    | map => simp [hmaps] at hlt
    | reduce =>
        have hidle := ((phaseOk hrun).mapPhase hmap ht).1
        rw [Complete.get hcomp ht] at hidle
        cases hidle
  cases k with
  | reduce => exact Or.inl (allDone_of_complete hfiles (by omega) hrun hcomp)
  | map =>
      cases hp : s.coord.phase with
      | map =>
          exact absurd hcomp (map_open hfiles hrun hp)
      | reduce => exact Or.inl rfl
      | allDone => exact Or.inr ⟨rfl, rfl⟩

/-- **When a replayed report is harmless.** A report that was accepted before and is delivered again changes nothing,
exactly when it is not the report of a map task in the last phase. -/
theorem replay_unchanged_iff (hrun : Reaches (coordSys files nReduce) tr s) {w : WorkerId} {args : DoneArgs}
    (hmem : .report w args true ∈ tr) :
    s.coord.reportTaskCompletion args = some s.coord
      ↔ ¬ (args.taskType = .map ∧ s.coord.phase = .allDone) := by
  obtain ⟨k, task, hk, ht, hdone, hatt⟩ := completed_of_accepted hrun hmem
  rw [replay_result (by rw [hk, kind_taskType]) ht hdone hatt, hk]
  by_cases hcomp : s.coord.Complete k
  · rw [if_pos hcomp]
    rcases phase_of_complete hrun ht hcomp with hp | ⟨rfl, hp⟩
    · rw [← hp]
      simp only [true_iff, not_and]
      rintro hmap hall
      cases k with
      | map => rw [hall] at hp; cases hp
      | reduce => cases hmap
    · -- the phase goes back to the reduce phase
      have hne : some { s.coord with phase := Kind.map.nextPhase } ≠ some s.coord := by
        intro heq
        have hback := congrArg Coordinator.phase (Option.some.inj heq)
        rw [hp] at hback
        cases hback
      simp [hne, hp, Kind.taskType]
  · rw [if_neg hcomp]
    simp only [true_iff, not_and]
    intro hmap hall
    obtain rfl : k = .map := by
      cases k with
      | map => rfl
      | reduce => cases hmap
    exact hcomp ((phaseOk hrun).afterMap (by rw [hall]; decide))

end Replay

/-- A replayed reduce report, after the job is done. -/
theorem replay_unchanged_iff_lateReport :
    ∃ s, Reaches (coordSys ["f"] 1) lateReportTrace s
      ∧ s.coord.reportTaskCompletion ⟨.reduce, 0, 0⟩ = some s.coord := by
  obtain ⟨s, hs, _⟩ := lateReportTrace_reaches
  have hmem : Event.report 1 ⟨.reduce, 0, 0⟩ true ∈ lateReportTrace := by decide
  refine ⟨s, hs, (replay_unchanged_iff hs hmem).mpr ?_⟩
  rintro ⟨hmap, _⟩
  cases hmap

/-- The job is done, and the report of its map task comes once more: the job is no longer done. -/
theorem replayed_map_report_undoes :
    ∃ s coord', Reaches (coordSys ["f"] 1) lateReportTrace s
      ∧ .report 1 ⟨.map, 0, 1⟩ true ∈ lateReportTrace
      ∧ s.coord.phase = .allDone ∧ s.coord.done = true
      ∧ s.coord.reportTaskCompletion ⟨.map, 0, 1⟩ = some coord'
      ∧ coord'.phase = .reduce ∧ coord'.done = false := by
  obtain ⟨s, hs, hp⟩ := exists_reaches_with (coordSys_computedBy ["f"] 1)
    (fun s => decide (s.coord.phase = .allDone
      ∧ (s.coord.reportTaskCompletion ⟨.map, 0, 1⟩).map Coordinator.phase = some .reduce))
    (show (exec next (coordSys ["f"] 1).init lateReportTrace).any _ = true by decide)
  obtain ⟨hall, hback⟩ := of_decide_eq_true hp
  obtain ⟨coord', hc, hphase⟩ := Option.map_eq_some_iff.mp hback
  refine ⟨s, coord', hs, by decide, hall, by simp [Coordinator.done, hall], hc, hphase, ?_⟩
  simp [Coordinator.done, hphase]

end MapReduce
end DistributedLabs
