import DistributedLabs.Lib.Pool
import DistributedLabs.MapReduce.EndToEnd

/-!
# `MapReduce.Progress` — one worker is enough

Whatever has happened to a job, however many workers have crashed or are stuck in their tasks, one worker that is about
to ask for a task can finish the job alone: the tasks of the others expire, it does the tasks that are left one after
the other, and is told to exit (`one_worker_finishes_iff`). That needs an input file and a reduce task; without them
the phase never gets to its end. And nobody leaves early: when a worker exits, or the coordinator is done, every output
file is there for good (`exit_after_outputs`).

Two assumptions are about the surroundings. The input files can be read and the map function returns on them
(`Job.Readable`): a worker that cannot open its file exits. And the clock does not go back (`Timely`): the readings
with which the worker goes on are not before those of the run so far, nor before each other. `Alone` therefore carries
the time along with the state.

## The argument

* `map_alone`, `reduce_alone`: a worker on its own can do any task it has been given.
* `one_task`: from a state with an idle task it gets one, does it, and reports it; there is one task less to do.
* `tick_idle`: where no task is idle, those that are in progress expire, and then there is one.
* `all_tasks`: by induction over the tasks that are left, until `Assign` tells the worker to exit.
-/

namespace DistributedLabs
namespace MapReduce

open Lib

/-! ## A worker on its own -/

/-- A worker's own actions, one after another, while nobody else acts. -/
inductive WorkerRun (job : Job) : Pc → Dir → Pc → Dir → Prop where
  | refl {pc dir} : WorkerRun job pc dir pc dir
  | snoc {pc dir pc₁ dir₁ a pc₂ dir₂} : WorkerRun job pc dir pc₁ dir₁ → WorkerStep job dir₁ pc₁ a pc₂ dir₂ →
      WorkerRun job pc dir pc₂ dir₂

section Alone

variable {job : Job} {pc pc' : Pc} {dir dir' : Dir} {reply : RPCReply} {kva : List KeyValue}

theorem WorkerRun.single {a : Action} (h : WorkerStep job dir pc a pc' dir') : WorkerRun job pc dir pc' dir' :=
  WorkerRun.refl.snoc h

theorem WorkerRun.trans {pc'' : Pc} {dir'' : Dir} (h : WorkerRun job pc dir pc' dir')
    (h' : WorkerRun job pc' dir' pc'' dir'') : WorkerRun job pc dir pc'' dir'' := by
  induction h' with
  | refl => exact h
  | snoc _ hstep ih => exact ih.snoc hstep

/-- A directory does not have all names of one kind. -/
theorem exists_fresh (dir : Dir) (body : String) : ∃ n, fileName body n ∉ dir := by
  by_contra hall
  simp only [not_exists, not_not] at hall
  have hnodup : ((List.range (dir.keys.length + 1)).map (fileName body)).Nodup := by
    refine List.Nodup.map ?_ List.nodup_range
    intro m n hmn
    exact (fileName_inj.mp hmn).2
  have hsub : (List.range (dir.keys.length + 1)).map (fileName body) ⊆ dir.keys := by
    intro name hname
    obtain ⟨n, -, rfl⟩ := List.mem_map.mp hname
    exact AList.mem_keys.mp (hall n)
  have hle := (List.subperm_of_subset hnodup hsub).length_le
  rw [List.length_map, List.length_range] at hle
  omega

/-- The temporary files from number `n` on are in the directory. -/
def TempsFrom (dir : Dir) (temps : List Nat) (n : Nat) : Prop :=
  ∀ i sfx, n ≤ i → temps[i]? = some sfx → mapTempName i sfx ∈ dir

/-- The first loop of a map task. -/
theorem createTemps (job : Job) (kva : List KeyValue) (dir : Dir) {n : Nat} (hn : n ≤ reply.nReduce) :
    ∃ temps dir', WorkerRun job (.mapWriting reply kva [] 0) dir (.mapWriting reply kva temps 0) dir' ∧
      temps.length = n ∧ TempsFrom dir' temps 0 := by
  induction n with
  | zero => exact ⟨[], dir, .refl, rfl, fun i sfx _ hi => by cases hi⟩
  | succ n ih =>
      obtain ⟨temps, dir₁, hrun, hlen, htemps⟩ := ih (by omega)
      obtain ⟨sfx, hfresh⟩ := exists_fresh dir₁ ("map-" ++ toString temps.length)
      have hstep : WorkerStep job dir₁ (.mapWriting reply kva temps 0) (.createTemp sfx) _ _ :=
        .createTemp (by omega) hfresh
      refine ⟨_, _, hrun.snoc hstep, ?_, ?_⟩
      · rw [List.length_append, hlen]
        rfl
      · intro i sfx' hi hget
        rw [AList.mem_insert]
        rcases snoc_cases hget with ⟨rfl, rfl⟩ | hold
        · exact Or.inl rfl
        · exact Or.inr (htemps i sfx' hi hold)

/-- The last loop of a map task. -/
theorem publishAll (job : Job) (kva : List KeyValue) {temps : List Nat} (hlen : temps.length = reply.nReduce)
    (htemps : TempsFrom dir temps 0) {n : Nat} (hn : n ≤ reply.nReduce) :
    ∃ dir', WorkerRun job (.mapWriting reply kva temps 0) dir (.mapWriting reply kva temps n) dir' ∧
      TempsFrom dir' temps n := by
  induction n with
  | zero => exact ⟨dir, .refl, htemps⟩
  | succ n ih =>
      obtain ⟨dir₁, hrun, htemps₁⟩ := ih (by omega)
      obtain ⟨sfx, hget⟩ : ∃ sfx, temps[n]? = some sfx := ⟨_, List.getElem?_eq_getElem (by omega)⟩
      refine ⟨_, hrun.snoc (.publish hlen hget (htemps₁ n sfx (Nat.le_refl n) hget)), ?_⟩
      intro i sfx' hi hget'
      have hmem := htemps₁ i sfx' (by omega) hget'
      show mapTempName i sfx' ∈ (dir₁.erase _).insert _ _
      rw [AList.mem_insert, AList.mem_erase]
      refine Or.inr ⟨?_, hmem⟩
      -- the name has the number of the bucket in it
      intro heq
      have hbody := congrArg String.toList (fileName_inj.mp heq).1
      rw [String.toList_append, String.toList_append] at hbody
      have hnum := toString_inj (String.toList_inj.mp (List.append_cancel_left hbody))
      omega

/-- A map task can be done by its worker alone. -/
theorem map_alone (hn : 1 ≤ reply.nReduce) {content : String} (hin : job.input reply.mapFile = some content)
    (hem : job.emits reply.mapFile content kva = true) (dir : Dir) :
    ∃ pc' dir', WorkerRun job (.mapAssigned reply) dir pc' dir' ∧
      pc'.ready = some ⟨.map, reply.taskId, reply.attempt⟩ := by
  have hmap : WorkerStep job dir (.mapAssigned reply) (.runMap kva) (.mapWriting reply kva [] 0) dir :=
    .runMap hin hem fun hzero => by omega
  obtain ⟨temps, dir₁, hcreate, hlen, htemps⟩ := createTemps job kva dir (Nat.le_refl reply.nReduce)
  obtain ⟨dir₂, hpublish, -⟩ := publishAll job kva hlen htemps (Nat.le_refl reply.nReduce)
  refine ⟨_, dir₂, ((WorkerRun.single hmap).trans hcreate).trans hpublish, ?_⟩
  exact if_pos ⟨hlen, rfl⟩

/-- The loop over the input files of a reduce task. -/
theorem readAll (job : Job) (reply : RPCReply) {todo : List String} (htodo : ∀ name ∈ todo, name ∈ dir)
    (kva : List KeyValue) :
    ∃ kva', WorkerRun job (.reduceReading reply todo kva) dir (.reduceReading reply [] kva') dir := by
  induction todo generalizing kva with
  | nil => exact ⟨kva, .refl⟩
  | cons name todo ih =>
      obtain ⟨content, hlookup⟩ := mem_iff_lookup.mp (htodo name (List.mem_cons_self ..))
      obtain ⟨kva', hrest⟩ := ih (fun name' hname => htodo name' (List.mem_cons_of_mem _ hname))
        (kva ++ decodeStream content)
      exact ⟨kva', (WorkerRun.single (.read hlookup)).trans hrest⟩

/-- A reduce task can be done by its worker alone. -/
theorem reduce_alone (job : Job) (reply : RPCReply) (dir : Dir) :
    ∃ pc' dir', WorkerRun job (.reduceAssigned reply) dir pc' dir' ∧
      pc'.ready = some ⟨.reduce, reply.taskId, reply.attempt⟩ := by
  have hlisted : ∀ name ∈ dir.glob (inputPattern reply.taskId), name ∈ dir := fun name hname => (mem_glob.mp hname).1
  obtain ⟨kva, hread⟩ := readAll job reply hlisted []
  obtain ⟨sfx, hfresh⟩ := exists_fresh dir ("reduce-" ++ toString reply.taskId)
  have hsort : SortsTo kva (kva.insertionSort (fun a b => a.key ≤ b.key)) :=
    ⟨List.pairwise_insertionSort _ _, List.perm_insertionSort _ _⟩
  have hreduce := hread.snoc (.runReduce hsort hfresh)
  have hpublish := hreduce.snoc (.publishOut ((AList.mem_insert _).mpr (Or.inl rfl)))
  exact ⟨_, _, (WorkerRun.single .glob).trans hpublish, rfl⟩

end Alone

/-! ## What is left to do -/

/-- A task counts until it is completed. -/
def Task.left (task : Task) : Nat := if task.state = .completed then 0 else 1

/-- The tasks that are not completed. -/
def Coordinator.remaining (c : Coordinator) : Nat :=
  ((c.tasks .map).map Task.left).sum + ((c.tasks .reduce).map Task.left).sum

section Coordinator

variable {c c' : Coordinator} {k : Kind} {i : Nat} {task task' : Task}

/-- How the number of tasks left changes with one task. -/
theorem remaining_set (hi : (c.tasks k)[i]? = some task)
    (htasks : ∀ k', c'.tasks k' = (c.setTasks k ((c.tasks k).set i task')).tasks k') :
    c'.remaining + task.left = c.remaining + task'.left := by
  have hset := sum_map_set (w := Task.left) hi task'
  unfold Coordinator.remaining
  rw [htasks .map, htasks .reduce]
  cases k with
  | map =>
      rw [setTasks_self, setTasks_ne c _ (by decide)]
      omega
  | reduce =>
      rw [setTasks_self, setTasks_ne c _ (by decide)]
      omega

theorem expire_left (now : Nat) (task : Task) : (task.expire now).left = task.left := by
  unfold Task.expire
  split
  case isTrue hexpired =>
      have hstate : task.state = .inProgress := (of_decide_eq_true hexpired).1
      simp [Task.left, hstate]
  case isFalse => rfl

theorem left_expire (now : Nat) (tasks : List Task) :
    ((expireTasksLocked now tasks).map Task.left).sum = (tasks.map Task.left).sum := by
  induction tasks with
  | nil => rfl
  | cons task tasks ih =>
      show (task.expire now).left + ((expireTasksLocked now tasks).map Task.left).sum = _
      rw [ih, expire_left]
      rfl

theorem remaining_checkTimeout (c : Coordinator) (now : Nat) : (c.checkTimeout now).remaining = c.remaining := by
  have hkind : ∀ k, (((c.checkTimeout now).tasks k).map Task.left).sum = ((c.tasks k).map Task.left).sum := by
    intro k
    rw [checkTimeout_tasks]
    split
    · exact left_expire now _
    · rfl
  unfold Coordinator.remaining
  rw [hkind, hkind]

/-- There is a later moment at which all tasks of the phase that are in progress have expired. -/
theorem exists_timeout (hk : c.phase.kind = some k) (t : Nat) :
    ∃ now, t ≤ now ∧ ∀ task ∈ (c.checkTimeout now).tasks k, task.state ≠ .inProgress := by
  refine ⟨t + ((c.tasks k).map Task.startTime).sum + taskTimeout + 1, by omega, ?_⟩
  intro task htask hstate
  rw [checkTimeout_tasks, if_pos hk] at htask
  obtain ⟨task₀, hmem, rfl⟩ := List.mem_map.mp htask
  have hstart := List.le_sum_of_mem (List.mem_map_of_mem (f := Task.startTime) hmem)
  unfold Task.expire at hstate
  split at hstate
  case isTrue => cases hstate
  case isFalse hexpired =>
      apply hexpired
      refine decide_eq_true ⟨hstate, ?_⟩
      omega

/-- Where there is an idle task, `Assign` hands one out. -/
theorem assign_of_idle (hk : c.phase.kind = some k) (hidle : ∃ task ∈ c.tasks k, task.state = .idle) (now : Nat) :
    ∃ task i, (c.tasks k)[i]? = some task ∧ task.state = .idle ∧
      (c.assign now).1 = c.setTasks k ((c.tasks k).set i (task.start now)) ∧
      (c.assign now).2 = c.taskReply k task i := by
  rcases assign_cases c now with ⟨k', task, i, hk', hi, hstate, hcoord, hreply⟩ | ⟨-, hnone⟩
  · obtain rfl : k' = k := Option.some.inj (hk'.symm.trans hk)
    exact ⟨task, i, hi, hstate, hcoord, hreply⟩
  · exfalso
    have hfrom : c.assign now = c.assignFrom k now := by
      unfold Coordinator.assign
      cases hp : c.phase <;> rw [hp] at hk <;> cases hk <;> rfl
    rw [hfrom] at hnone
    unfold Coordinator.assignFrom at hnone
    cases hfirst : firstIdle (c.tasks k) with
    | some p =>
        rw [hfirst] at hnone
        cases k <;> cases hnone
    | none =>
        obtain ⟨task, hmem, hstate⟩ := hidle
        obtain ⟨i, hi⟩ := List.mem_iff_getElem?.mp hmem
        have hno := List.find?_eq_none.mp hfirst (task, i) (List.mem_zipIdx_iff_getElem?.mpr hi)
        simp [hstate] at hno

/-- `Assign` sends a worker home in the last phase only. -/
theorem allDone_of_exit (now : Nat) (h : (c.assign now).2.taskType = .exit) : c.phase = .allDone := by
  have hfrom : ∀ k, (c.assignFrom k now).2.taskType ≠ .exit := by
    intro k
    unfold Coordinator.assignFrom
    cases firstIdle (c.tasks k) with
    | none => exact fun hexit => by cases hexit
    | some p => cases k <;> exact fun hexit => by cases hexit
  unfold Coordinator.assign at h
  cases hp : c.phase with
  | map =>
      rw [hp] at h
      exact absurd h (hfrom .map)
  | reduce =>
      rw [hp] at h
      exact absurd h (hfrom .reduce)
  | allDone => rfl

end Coordinator

/-! ## The clock -/

/-- The reading of the clock with which a step is made. -/
def JobEvent.now? : JobEvent → Option Nat
  | .assign _ now _ | .tick now _ => some now
  | _ => none

/-- The readings of the clock in a run, oldest first. -/
def readings (tr : List JobEvent) : List Nat := tr.filterMap JobEvent.now?

/-- The clock does not go back. -/
def Timely (tr : List JobEvent) : Prop := (readings tr).Pairwise (· ≤ ·)

/-- The readings of a part of a run that goes from time `t` to time `t'`. -/
structure Between (t : Nat) (tr : List JobEvent) (t' : Nat) : Prop where
  le : t ≤ t'
  timely : Timely tr
  within : ∀ now ∈ readings tr, t ≤ now ∧ now ≤ t'

theorem readings_append (tr tr' : List JobEvent) : readings (tr ++ tr') = readings tr ++ readings tr' :=
  List.filterMap_append

theorem between_nil (t : Nat) : Between t [] t := ⟨Nat.le_refl t, .nil, nofun⟩

/-- A step is made at its own time, or takes no look at the clock. -/
theorem between_single {t t' : Nat} {e : JobEvent} (hle : t ≤ t') (he : ∀ now, e.now? = some now → now = t') :
    Between t [e] t' := by
  have hread : ∀ now ∈ readings [e], now = t' := by
    intro now hnow
    obtain ⟨e', he', hnow'⟩ := List.mem_filterMap.mp hnow
    rw [List.mem_singleton.mp he'] at hnow'
    exact he now hnow'
  refine ⟨hle, ?_, fun now hnow => ?_⟩
  · refine List.pairwise_of_forall_mem_list (fun a ha b hb => ?_)
    rw [hread a ha, hread b hb]
  · rw [hread now hnow]
    exact ⟨hle, Nat.le_refl _⟩

theorem Between.append {t t' t'' : Nat} {tr tr' : List JobEvent} (h : Between t tr t') (h' : Between t' tr' t'') :
    Between t (tr ++ tr') t'' := by
  refine ⟨Nat.le_trans h.le h'.le, ?_, fun now hnow => ?_⟩
  · unfold Timely
    rw [readings_append]
    refine List.pairwise_append.mpr ⟨h.timely, h'.timely, fun a ha b hb => ?_⟩
    exact Nat.le_trans (h.within a ha).2 (h'.within b hb).1
  · rw [readings_append] at hnow
    rcases List.mem_append.mp hnow with hold | hnew
    · exact ⟨(h.within now hold).1, Nat.le_trans (h.within now hold).2 h'.le⟩
    · exact ⟨Nat.le_trans h.le (h'.within now hnew).1, (h'.within now hnew).2⟩

/-- A run with a clock that does not go back ends at some time. -/
theorem Timely.between {tr : List JobEvent} (h : Timely tr) : Between 0 tr (readings tr).sum :=
  ⟨Nat.zero_le _, h, fun _ hnow => ⟨Nat.zero_le _, List.le_sum_of_mem hnow⟩⟩

/-! ## One worker, one task -/

/-- The worker's events, and those of the clock. -/
def JobEvent.by (w : WorkerId) : JobEvent → Bool
  | .assign v _ _ => v = w
  | .act v _ => v = w
  | .report v _ _ => v = w
  | .crash _ => false
  | .tick _ _ => true

/-- While nobody but the worker `w` acts, the job can get from `s` at time `t` to `s'` at time `t'`. -/
def Alone (job : Job) (w : WorkerId) (t : Nat) (s : JobState) (t' : Nat) (s' : JobState) : Prop :=
  ∃ tr, Run ((jobSys job).restrict (fun e => e.by w = true)) s tr s' ∧ Between t tr t'

section Job

variable {job : Job} {w : WorkerId} {tr : List JobEvent} {t t' t'' : Nat} {s s' s'' : JobState}

theorem Alone.refl : Alone job w t s t s := ⟨[], Run.nil, between_nil t⟩

theorem Alone.trans (h : Alone job w t s t' s') (h' : Alone job w t' s' t'' s'') : Alone job w t s t'' s'' := by
  obtain ⟨tr, hrun, htime⟩ := h
  obtain ⟨tr', hrun', htime'⟩ := h'
  exact ⟨tr ++ tr', hrun.append hrun', htime.append htime'⟩

theorem Alone.single {e : JobEvent} (hstep : JobStep job s e s') (he : e.by w = true) (hle : t ≤ t')
    (hnow : ∀ now, e.now? = some now → now = t') : Alone job w t s t' s' :=
  ⟨[e], Run.single ⟨hstep, he⟩, between_single hle hnow⟩

/-- A step without a look at the clock. -/
theorem Alone.snoc {e : JobEvent} (h : Alone job w t s t' s') (hstep : JobStep job s' e s'') (he : e.by w = true)
    (hnow : e.now? = none) : Alone job w t s t' s'' :=
  h.trans (.single hstep he (Nat.le_refl _) (fun now hsome => by rw [hnow] at hsome; cases hsome))

theorem Alone.reaches (h : Reaches (jobSys job) tr s) (h' : Alone job w t s t' s') :
    ∃ tr', Reaches (jobSys job) tr' s' := by
  obtain ⟨tr', hrun, -⟩ := h'
  exact ⟨tr ++ tr', h.append (Run.of_restrict hrun).1⟩

/-- A worker's own actions are steps of the job that leave the coordinator as it is. -/
theorem WorkerRun.alone {pc' : Pc} {dir' : Dir} (h : WorkerRun job (s.pc w) s.dir pc' dir') (t : Nat) :
    ∃ s', Alone job w t s t s' ∧ s'.coord = s.coord ∧ s'.dir = dir' ∧ s'.pc w = pc' := by
  generalize hpc : s.pc w = pc at h
  generalize hdir : s.dir = dir at h
  induction h with
  | refl => exact ⟨s, .refl, rfl, hdir, hpc⟩
  | snoc _ hstep ih =>
      obtain ⟨s₁, halone, hcoord, rfl, rfl⟩ := ih
      exact ⟨_, halone.snoc (.act hstep) (decide_eq_true rfl) rfl, hcoord, rfl, Function.update_self ..⟩

/-- Every input file can be read, and the map function returns on it. -/
def Job.Readable (job : Job) : Prop :=
  ∀ file ∈ job.files, ∃ content kva, job.input file = some content ∧ job.emits file content kva = true

/-- The worker can do what it has just been given. -/
theorem assigned_alone (hn : 1 ≤ job.nReduce) (hread : job.Readable) (hok : PcOk job s (s.pc w)) {k : Kind}
    {reply : RPCReply} (htype : reply.taskType = k.taskType) (hpc : s.pc w = .afterAssign reply) (t : Nat) :
    ∃ s', Alone job w t s t s' ∧ s'.coord = s.coord ∧
      (s'.pc w).ready = some ⟨k.taskType, reply.taskId, reply.attempt⟩ := by
  unfold Pc.afterAssign at hpc
  cases k with
  | map =>
      rw [htype] at hpc
      change s.pc w = .mapAssigned reply at hpc
      rw [hpc] at hok
      obtain ⟨hreduce, hfile⟩ := hok
      obtain ⟨content, kva, hin, hem⟩ := hread reply.mapFile (List.mem_of_getElem? hfile)
      obtain ⟨pc', dir', hrun, hready⟩ := map_alone (hreduce ▸ hn) hin hem s.dir
      rw [← hpc] at hrun
      obtain ⟨s', halone, hcoord, -, rfl⟩ := hrun.alone t
      exact ⟨s', halone, hcoord, hready⟩
  | reduce =>
      rw [htype] at hpc
      change s.pc w = .reduceAssigned reply at hpc
      obtain ⟨pc', dir', hrun, hready⟩ := reduce_alone job reply s.dir
      rw [← hpc] at hrun
      obtain ⟨s', halone, hcoord, -, rfl⟩ := hrun.alone t
      exact ⟨s', halone, hcoord, hready⟩

/-- An accepted report of a task in progress leaves one task less. -/
theorem remaining_report {c c' : Coordinator} {k : Kind} {i : Nat} {task : Task} (hi : (c.tasks k)[i]? = some task)
    (hstate : task.state ≠ .completed) (hreport : c.reportTaskCompletion ⟨k.taskType, i, task.attempt⟩ = some c') :
    c'.remaining + 1 = c.remaining := by
  obtain ⟨task', hi', ⟨hne, -⟩ | ⟨-, htasks, -⟩⟩ := report_cases (kind_taskType k) hreport
  · obtain rfl : task = task' := Option.some.inj (hi.symm.trans hi')
    exact absurd rfl hne
  · obtain rfl : task = task' := Option.some.inj (hi.symm.trans hi')
    have hset := remaining_set hi htasks
    have hleft : task.left = 1 := if_neg hstate
    have hdone : task.complete.left = 0 := rfl
    omega

/-- The worker asks for a task where one is idle, does it and reports it. -/
theorem one_task (hn : 1 ≤ job.nReduce) (hread : job.Readable) (h : Reaches (jobSys job) tr s) (hw : s.pc w = .idle)
    {k : Kind} (hk : s.coord.phase.kind = some k) (hidle : ∃ task ∈ s.coord.tasks k, task.state = .idle) (t : Nat) :
    ∃ s', Alone job w t s t s' ∧ s'.pc w = .idle ∧ s'.coord.remaining < s.coord.remaining := by
  obtain ⟨task, i, hi, hstate, hcoord, hreply⟩ := assign_of_idle hk hidle t
  have hassign : JobStep job s (.assign w t (s.coord.assign t).2) _ := .assign hw
  rw [hcoord, hreply] at hassign
  have hreach := h.snoc hassign
  have halone : Alone job w t s t _ :=
    .single hassign (decide_eq_true rfl) (Nat.le_refl t) (fun _ hnow => (Option.some.inj hnow).symm)
  -- the worker does it
  have hok := (jobOk hreach).pc w
  obtain ⟨s₁, hdo, hsame, hready⟩ := assigned_alone hn hread hok (k := k) rfl (Function.update_self ..) t
  -- and reports it
  have hi' : (s₁.coord.tasks k)[i]? = some (task.start t) := by
    rw [hsame]
    show ((s.coord.setTasks k _).tasks k)[i]? = _
    rw [setTasks_self]
    exact set_self hi _
  obtain ⟨coord', hreport⟩ :
      ∃ coord', s₁.coord.reportTaskCompletion ⟨k.taskType, i, task.attempt⟩ = some coord' :=
    Option.isSome_iff_exists.mp (report_isSome (kind_taskType k) (lt_length hi'))
  refine ⟨_, (halone.trans hdo).snoc (.report hready hreport) (decide_eq_true rfl) rfl, Function.update_self .., ?_⟩
  have hstarted : (s.coord.setTasks k ((s.coord.tasks k).set i (task.start t))).remaining + task.left = _ :=
    remaining_set hi (fun _ => rfl)
  have hdone := remaining_report hi' (by simp [Task.start]) hreport
  rw [hsame] at hdone
  have hleft : task.left = 1 := if_neg (by rw [hstate]; decide)
  have hleft' : (task.start t).left = 1 := rfl
  show coord'.remaining < _
  change coord'.remaining + 1 = (s.coord.setTasks k _).remaining at hdone
  omega

/-- The tasks of the others expire, and then there is one to do. -/
theorem tick_idle (hf : job.files ≠ []) (hn : 1 ≤ job.nReduce) (h : Reaches (jobSys job) tr s) {k : Kind}
    (hk : s.coord.phase.kind = some k) (t : Nat) :
    ∃ now, t ≤ now ∧ (s.coord.checkTimeout now).phase.kind = some k ∧
      ∃ task ∈ (s.coord.checkTimeout now).tasks k, task.state = .idle := by
  obtain ⟨now, hle, hexpired⟩ := exists_timeout hk t
  have hk' : (s.coord.checkTimeout now).phase.kind = some k := by
    rw [checkTimeout_phase]
    exact hk
  have htick : JobStep job s (.tick now (s.coord.expires now)) ⟨s.coord.checkTimeout now, s.dir, s.pc⟩ := .tick
  have hopen := open_of_reaches hf hn (reaches_view (h.snoc htick)) hk'
  unfold Coordinator.Complete at hopen
  push Not at hopen
  obtain ⟨task, hmem, hstate⟩ := hopen
  refine ⟨now, hle, hk', task, hmem, ?_⟩
  have hnot := hexpired task hmem
  cases hst : task.state with
  | idle => rfl
  | inProgress => exact absurd hst hnot
  | completed => exact absurd hst hstate

/-- The worker goes on until it is told to exit. -/
theorem all_tasks (hf : job.files ≠ []) (hn : 1 ≤ job.nReduce) (hread : job.Readable)
    (h : Reaches (jobSys job) tr s) (hw : s.pc w = .idle) (t : Nat) :
    ∃ t' s', Alone job w t s t' s' ∧ s'.coord.phase = .allDone ∧ s'.pc w = .exited := by
  -- by induction on the number of tasks that are left
  generalize hrem : s.coord.remaining = n
  induction n using Nat.strongRecOn generalizing tr s t with
  | ind n ih =>
      cases hk : s.coord.phase.kind with
      | none =>
          have hall : s.coord.phase = .allDone := by
            cases hp : s.coord.phase with
            | map => rw [hp] at hk; cases hk
            | reduce => rw [hp] at hk; cases hk
            | allDone => rfl
          have hexit : s.coord.assign t = (s.coord, { taskType := .exit }) := by
            unfold Coordinator.assign
            rw [hall]
          have hassign : JobStep job s (.assign w t (s.coord.assign t).2) _ := .assign hw
          rw [hexit] at hassign
          refine ⟨t, _, .single hassign (decide_eq_true rfl) (Nat.le_refl t) ?_, hall, Function.update_self ..⟩
          exact fun _ hnow => (Option.some.inj hnow).symm
      | some k =>
          -- the worker waits until the tasks in progress have expired, does one task, and goes on
          obtain ⟨now, hle, hk', hidle⟩ := tick_idle hf hn h hk t
          have htick : JobStep job s (.tick now (s.coord.expires now)) ⟨s.coord.checkTimeout now, s.dir, s.pc⟩ := .tick
          have hwait : Alone job w t s now _ := .single htick rfl hle (fun _ hnow => (Option.some.inj hnow).symm)
          obtain ⟨s₁, htask, hw₁, hless⟩ := one_task hn hread (h.snoc htick) hw hk' hidle now
          change s₁.coord.remaining < (s.coord.checkTimeout now).remaining at hless
          rw [remaining_checkTimeout] at hless
          obtain ⟨tr₁, hreach₁⟩ := (hwait.trans htask).reaches h
          obtain ⟨t', s', hrest, hend⟩ := ih s₁.coord.remaining (by omega) hreach₁ hw₁ now rfl
          exact ⟨t', s', (hwait.trans htask).trans hrest, hend⟩

/-! ## Leaving -/

theorem allDone_step {s s' : JobState} {e : JobEvent} (h : Reaches (jobSys job) tr s) (hs : JobStep job s e s')
    (hall : s.coord.phase = .allDone) : s'.coord.phase = .allDone := by
  have hview := reaches_view h
  rcases hs.view with ⟨e', -, hstep, -⟩ | ⟨w, a, pc', dir', -, -, rfl⟩
  · rcases step_phase (heldOk hview) (phaseOk hview) hstep with hsame | ⟨k, hk, -⟩
    · exact hsame.trans hall
    · change s.coord.phase.kind = some k at hk
      rw [hall] at hk
      cases hk
  · exact hall

theorem allDone_run {tr' : List JobEvent} (h : Reaches (jobSys job) tr s) (hrun : Run (jobSys job) s tr' s')
    (hall : s.coord.phase = .allDone) : s'.coord.phase = .allDone :=
  Run.invariant (P := fun _ s' => s'.coord.phase = .allDone) hall
    (fun _ _ _ _ hpre ih hs => allDone_step (h.append hpre) hs ih) hrun

/-- A worker is told to exit in the last phase only. -/
theorem exited_allDone (h : Reaches (jobSys job) tr s) : ∀ w, s.pc w = .exited → s.coord.phase = .allDone := by
  refine Reaches.invariant (P := fun _ s => ∀ w, s.pc w = .exited → s.coord.phase = .allDone) ?_ ?_ h
  · intro w hw
    cases hw
  · intro tr s e s' hrun ih hs
    refine hs.forall_pc (P := fun pc => pc = .exited → s'.coord.phase = .allDone) ?_ ?_ ?_ ?_ ?_
    · exact fun v hv => allDone_step hrun hs (ih v hv)
    · intro hidle
      cases hidle
    · intro hcrashed
      cases hcrashed
    · intro now hexit
      apply allDone_step hrun hs
      apply allDone_of_exit now
      unfold Pc.afterAssign at hexit
      split at hexit
      case h_4 htype => exact htype
      all_goals cases hexit
    · intro w a pc' dir' _ ha _ hexit
      rw [hexit] at ha
      generalize s.pc w = pc at ha
      cases ha

/-! ## The results -/

/-- **One worker is enough.** Let the input files be readable. One worker can finish a job from wherever it has got to,
    with a clock that does not go back, if and only if there is an input file and a reduce task. -/
theorem one_worker_finishes_iff (job : Job) (hread : job.Readable) :
    (∀ tr s w, Reaches (jobSys job) tr s → Timely tr → s.pc w = .idle →
      ∃ tr' s', Run (jobSys job) s tr' s' ∧ Timely (tr ++ tr') ∧ (∀ e ∈ tr', e.by w = true) ∧ s'.coord.done = true
        ∧ s'.pc w = .exited)
    ↔ job.files ≠ [] ∧ 1 ≤ job.nReduce := by
  constructor
  · intro hall
    obtain ⟨tr', s', hrun, -, -, hdone, -⟩ := hall [] _ 0 Run.nil .nil rfl
    have hview : Reaches (coordSys job.files job.nReduce) _ s'.view := reaches_view hrun
    have hphase : s'.coord.phase = .allDone := of_decide_eq_true hdone
    constructor
    · intro hf
      have hmap := no_files hf hview
      change s'.coord.phase = .map at hmap
      rw [hphase] at hmap
      cases hmap
    · by_contra hn
      exact no_reduce (by omega) hview hphase
  · rintro ⟨hf, hn⟩ tr s w h htimely hw
    obtain ⟨t', s', ⟨tr', hrun, htime⟩, hall, hexited⟩ := all_tasks hf hn hread h hw (readings tr).sum
    obtain ⟨hrun', hby⟩ := Run.of_restrict hrun
    exact ⟨tr', s', hrun', (htimely.between.append htime).timely, hby, decide_eq_true hall, hexited⟩

theorem demoJob_readable (key : String) : (demoJob key).Readable := by
  intro file hfile
  obtain rfl := List.mem_singleton.mp hfile
  exact ⟨_, _, rfl, decide_eq_true rfl⟩

/-- Worker 1 has taken the map task at time 7 and crashed, and worker 0 finishes the job. -/
theorem one_worker_finishes_crashed : ∃ reply tr' s',
    Reaches (jobSys (demoJob "word")) ([.assign 1 7 reply, .crash 1] ++ tr') s' ∧
      Timely ([.assign 1 7 reply, .crash 1] ++ tr') ∧ (∀ e ∈ tr', e.by 0 = true) ∧ s'.coord.done = true ∧
      s'.pc 0 = .exited := by
  have hassign : Reaches (jobSys (demoJob "word")) [.assign 1 7 _] _ := Run.single (JobStep.assign rfl)
  have hcrash := hassign.snoc (e := (.crash 1 : JobEvent)) JobStep.crash
  obtain ⟨tr', s', hrun, htime, hby, hdone, hexited⟩ :=
    (one_worker_finishes_iff _ (demoJob_readable "word")).mpr ⟨by decide, by decide⟩ _ _ 0 hcrash
      (List.pairwise_singleton ..) rfl
  exact ⟨_, tr', s', hcrash.append hrun, htime, hby, hdone, hexited⟩

/-- **Nobody leaves early.** When the coordinator is done or a worker has exited, every output file is there, and
stays. -/
theorem exit_after_outputs (job : Job) :
    ∀ tr s, Reaches (jobSys job) tr s → (s.coord.done = true ∨ ∃ w, s.pc w = .exited) →
      ∀ tr' s', Run (jobSys job) s tr' s' → s'.coord.done = true ∧ ∀ r < job.nReduce, outName r ∈ s'.dir := by
  intro tr s h hend tr' s' hrun
  have hall : s.coord.phase = .allDone := by
    rcases hend with hdone | ⟨w, hw⟩
    · exact of_decide_eq_true hdone
    · exact exited_allDone h w hw
  have hall' := allDone_run h hrun hall
  exact ⟨decide_eq_true hall', fun r hr => out_mem_of_allDone (h.append hrun) hall' hr⟩

/-- A run in which worker 0 does the whole job and exits. -/
theorem exit_after_outputs_demoJob : ∃ tr s, Reaches (jobSys (demoJob "word")) tr s ∧ s.pc 0 = .exited ∧
    outName 0 ∈ s.dir := by
  obtain ⟨_, s, halone, -, hexited⟩ := all_tasks (by decide) (by decide) (demoJob_readable "word")
    (Run.nil : Reaches (jobSys (demoJob "word")) [] _) (w := 0) rfl 0
  obtain ⟨tr, hreach⟩ := halone.reaches Run.nil
  have hout := exit_after_outputs _ tr s hreach (Or.inr ⟨0, hexited⟩) [] s Run.nil
  exact ⟨tr, s, hreach, hexited, hout.2 0 (by decide)⟩

end Job

end MapReduce
end DistributedLabs
