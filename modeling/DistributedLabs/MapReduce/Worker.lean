import DistributedLabs.MapReduce.CoordinatorSafety
import DistributedLabs.MapReduce.Dataflow
import DistributedLabs.MapReduce.Files

/-!
# `MapReduce.Worker` — what workers do with their tasks

The loop of `Worker` between an `Assign` and the report: for a map task read, map, create the temporary files,
encode, and publish the buckets one rename after another; for a reduce task list the input files, read them one
after another, sort, reduce, and publish. All workers share the directory, and between any two of these
actions other workers act, tasks expire, and the worker itself may crash and leave its temporary files behind.

A worker's buffered writers put some beginning of the text into the temporary file at any time (`spill`);
flush, close and rename are one action, since a flushed temporary file is what a spill of the whole text shows.
A listing of the directory, and opening and reading one file, are one action each. A failed call ends the
process, which is a crash. The input files are not in the directory.

The workers and the coordinator together are `jobSys`; forgetting what workers do with their tasks
projects it onto `coordSys` (`jobProjection`).

`WorkerStep` and `JobStep` are relations, since a worker may be anywhere and does what it can; `Job.act` and `jobNext`
compute them, so that a run can be given by its events and checked. What the worker reads from the directory is part
of the event: two runs in which the decoder sees different files are different traces.
-/

namespace DistributedLabs
namespace MapReduce

open Lib

/-! ## A job -/

/-- What a job is run on. `emits file content kva`: the map function may return `kva` for this file; it may
    return different things at different times. -/
structure Job where
  files : List String
  nReduce : Nat
  input : String → Option String
  emits : String → String → List KeyValue → Bool
  reducef : String → List String → String

/-- The map function is a function. -/
def Job.Deterministic (job : Job) (mapf : String → String → List KeyValue) : Prop :=
  ∀ file content kva, job.emits file content kva = true ↔ kva = mapf file content

/-! ## One worker -/

/-- Where a worker is. -/
inductive Pc where
  | idle
  | mapAssigned (reply : RPCReply)
  /-- The random parts of the names of the temporary files made so far, and how many were published. -/
  | mapWriting (reply : RPCReply) (kva : List KeyValue) (temps : List Nat) (published : Nat)
  | reduceAssigned (reply : RPCReply)
  | reduceReading (reply : RPCReply) (todo : List String) (kva : List KeyValue)
  | reduceWriting (reply : RPCReply) (out : List Char) (sfx : Nat)
  | reducePublished (reply : RPCReply)
  | exited
  | crashed
deriving DecidableEq, Repr

/-- The `switch` on the task type of a reply. -/
def Pc.afterAssign (reply : RPCReply) : Pc :=
  match reply.taskType with
  | .map => .mapAssigned reply
  | .reduce => .reduceAssigned reply
  | .wait => .idle
  | .exit => .exited

/-- A reply without a task sends the worker back or home. -/
theorem afterAssign_of_none {reply : RPCReply} (h : reply.taskType.kind = none) :
    Pc.afterAssign reply = .idle ∨ Pc.afterAssign reply = .exited := by
  unfold Pc.afterAssign
  cases ht : reply.taskType with
  | map => rw [ht] at h; cases h
  | reduce => rw [ht] at h; cases h
  | wait => exact Or.inl rfl
  | exit => exact Or.inr rfl

/-- The report a worker will make of the task it is at. -/
def Pc.held : Pc → Option DoneArgs
  | .mapAssigned reply => some ⟨.map, reply.taskId, reply.attempt⟩
  | .mapWriting reply _ _ _ => some ⟨.map, reply.taskId, reply.attempt⟩
  | .reduceAssigned reply => some ⟨.reduce, reply.taskId, reply.attempt⟩
  | .reduceReading reply _ _ => some ⟨.reduce, reply.taskId, reply.attempt⟩
  | .reduceWriting reply _ _ => some ⟨.reduce, reply.taskId, reply.attempt⟩
  | .reducePublished reply => some ⟨.reduce, reply.taskId, reply.attempt⟩
  | .idle => none
  | .exited => none
  | .crashed => none

/-- The report a worker is about to make: everything is published. -/
def Pc.ready : Pc → Option DoneArgs
  | .mapWriting reply _ temps published =>
      if temps.length = reply.nReduce ∧ published = reply.nReduce then
        some ⟨.map, reply.taskId, reply.attempt⟩
      else none
  | .reducePublished reply => some ⟨.reduce, reply.taskId, reply.attempt⟩
  | _ => none

/-- What a worker does on its own. -/
inductive Action where
  | runMap (kva : List KeyValue)
  | createTemp (sfx : Nat)
  | spill (i n : Nat)
  | publish (i : Nat)
  | glob (r : Nat) (names : List String)
  | read (name : String) (content : List Char)
  | runReduce (sorted : List KeyValue) (sfx : Nat)
  | spillOut (n : Nat)
  | publishOut (r : Nat)
deriving DecidableEq, Repr

/-- What the `i`-th encoder of a map task has been given. -/
def mapBuffer (reply : RPCReply) (kva : List KeyValue) (i : Nat) : List Char :=
  ((encodeBuckets reply.nReduce kva)[i]?).getD []

/-- One action of a worker: from where to where, and what becomes of the directory. -/
inductive WorkerStep (job : Job) (dir : Dir) : Pc → Action → Pc → Dir → Prop where
  -- with no reduce task there is no encoder, and the first record makes the worker panic
  | runMap {reply content kva} : job.input reply.mapFile = some content →
      job.emits reply.mapFile content kva = true → (reply.nReduce = 0 → kva = []) →
      WorkerStep job dir (.mapAssigned reply) (.runMap kva) (.mapWriting reply kva [] 0) dir
  | createTemp {reply kva temps sfx} : temps.length < reply.nReduce →
      mapTempName temps.length sfx ∉ dir →
      WorkerStep job dir (.mapWriting reply kva temps 0) (.createTemp sfx)
        (.mapWriting reply kva (temps ++ [sfx]) 0) (dir.insert (mapTempName temps.length sfx) [])
  | spill {reply kva temps published i n sfx old} : temps.length = reply.nReduce → published ≤ i →
      temps[i]? = some sfx → dir.lookup (mapTempName i sfx) = some old → old.length ≤ n →
      WorkerStep job dir (.mapWriting reply kva temps published) (.spill i n)
        (.mapWriting reply kva temps published)
        (dir.insert (mapTempName i sfx) ((mapBuffer reply kva i).take n))
  | publish {reply kva temps i sfx} : temps.length = reply.nReduce → temps[i]? = some sfx →
      mapTempName i sfx ∈ dir →
      WorkerStep job dir (.mapWriting reply kva temps i) (.publish i)
        (.mapWriting reply kva temps (i + 1))
        (dir.publish (mapTempName i sfx) (intermediateName reply.taskId i) (mapBuffer reply kva i))
  | glob {reply} :
      WorkerStep job dir (.reduceAssigned reply)
        (.glob reply.taskId (dir.glob (inputPattern reply.taskId)))
        (.reduceReading reply (dir.glob (inputPattern reply.taskId)) []) dir
  | read {reply name todo kva content} : dir.lookup name = some content →
      WorkerStep job dir (.reduceReading reply (name :: todo) kva) (.read name content)
        (.reduceReading reply todo (kva ++ decodeStream content)) dir
  | runReduce {reply kva sorted sfx} : SortsTo kva sorted → reduceTempName reply.taskId sfx ∉ dir →
      WorkerStep job dir (.reduceReading reply [] kva) (.runReduce sorted sfx)
        (.reduceWriting reply (reduceOutput job.reducef sorted) sfx)
        (dir.insert (reduceTempName reply.taskId sfx) [])
  | spillOut {reply out sfx n old} : dir.lookup (reduceTempName reply.taskId sfx) = some old →
      old.length ≤ n →
      WorkerStep job dir (.reduceWriting reply out sfx) (.spillOut n) (.reduceWriting reply out sfx)
        (dir.insert (reduceTempName reply.taskId sfx) (out.take n))
  | publishOut {reply out sfx} : reduceTempName reply.taskId sfx ∈ dir →
      WorkerStep job dir (.reduceWriting reply out sfx) (.publishOut reply.taskId)
        (.reducePublished reply)
        (dir.publish (reduceTempName reply.taskId sfx) (outName reply.taskId) out)

/-- The action a worker is asked for, if it is possible: the executable form of `WorkerStep`. -/
def Job.act (job : Job) (dir : Dir) : Pc → Action → Option (Pc × Dir)
  | .mapAssigned reply, .runMap kva =>
      if (job.input reply.mapFile).any (fun content => job.emits reply.mapFile content kva) = true
          ∧ (reply.nReduce = 0 → kva = []) then
        some (.mapWriting reply kva [] 0, dir)
      else none
  | .mapWriting reply kva temps published, .createTemp sfx =>
      if published = 0 ∧ temps.length < reply.nReduce ∧ mapTempName temps.length sfx ∉ dir then
        some (.mapWriting reply kva (temps ++ [sfx]) 0, dir.insert (mapTempName temps.length sfx) [])
      else none
  | .mapWriting reply kva temps published, .spill i n =>
      (temps[i]?).bind (fun sfx =>
        if temps.length = reply.nReduce ∧ published ≤ i
            ∧ (dir.lookup (mapTempName i sfx)).any (fun old => old.length ≤ n) = true then
          some (.mapWriting reply kva temps published,
            dir.insert (mapTempName i sfx) ((mapBuffer reply kva i).take n))
        else none)
  | .mapWriting reply kva temps published, .publish i =>
      (temps[i]?).bind (fun sfx =>
        if i = published ∧ temps.length = reply.nReduce ∧ mapTempName i sfx ∈ dir then
          some (.mapWriting reply kva temps (i + 1),
            dir.publish (mapTempName i sfx) (intermediateName reply.taskId i) (mapBuffer reply kva i))
        else none)
  | .reduceAssigned reply, .glob r names =>
      if r = reply.taskId ∧ names = dir.glob (inputPattern reply.taskId) then
        some (.reduceReading reply names [], dir)
      else none
  | .reduceReading reply (name :: todo) kva, .read name' content =>
      if name' = name ∧ dir.lookup name = some content then
        some (.reduceReading reply todo (kva ++ decodeStream content), dir)
      else none
  | .reduceReading reply [] kva, .runReduce sorted sfx =>
      if SortsTo kva sorted ∧ reduceTempName reply.taskId sfx ∉ dir then
        some (.reduceWriting reply (reduceOutput job.reducef sorted) sfx,
          dir.insert (reduceTempName reply.taskId sfx) [])
      else none
  | .reduceWriting reply out sfx, .spillOut n =>
      if (dir.lookup (reduceTempName reply.taskId sfx)).any (fun old => old.length ≤ n) = true then
        some (.reduceWriting reply out sfx, dir.insert (reduceTempName reply.taskId sfx) (out.take n))
      else none
  | .reduceWriting reply out sfx, .publishOut r =>
      if r = reply.taskId ∧ reduceTempName reply.taskId sfx ∈ dir then
        some (.reducePublished reply,
          dir.publish (reduceTempName reply.taskId sfx) (outName reply.taskId) out)
      else none
  | _, _ => none

theorem workerStep_iff {job : Job} {dir dir' : Dir} {pc pc' : Pc} {a : Action} :
    WorkerStep job dir pc a pc' dir' ↔ job.act dir pc a = some (pc', dir') := by
  constructor
  · intro h
    cases h with
    | runMap hin hem hz => simpa [Job.act, hin, hem] using hz
    | createTemp hlt hnew => simp [Job.act, hlt, hnew]
    | spill hlen hle hi hold hn => simp [Job.act, hlen, hle, hi, hold, hn]
    | publish hlen hi hmem => simp [Job.act, hlen, hi, hmem]
    | glob => simp [Job.act]
    | read hc => simp [Job.act, hc]
    | runReduce hsort hnew => simp [Job.act, hsort, hnew]
    | spillOut hold hn => simp [Job.act, hold, hn]
    | publishOut hmem => simp [Job.act, hmem]
  · intro h
    unfold Job.act at h
    split at h
    · simp only [Option.ite_none_right_eq_some, Option.some.injEq, Prod.mk.injEq,
        Option.any_eq_true] at h
      obtain ⟨⟨⟨content, hin, hem⟩, hz⟩, rfl, rfl⟩ := h
      exact .runMap hin hem hz
    · simp only [Option.ite_none_right_eq_some, Option.some.injEq, Prod.mk.injEq] at h
      obtain ⟨⟨rfl, hlt, hnew⟩, rfl, rfl⟩ := h
      exact .createTemp hlt hnew
    · simp only [Option.bind_eq_some_iff, Option.ite_none_right_eq_some, Option.some.injEq, Prod.mk.injEq,
        Option.any_eq_true, decide_eq_true_iff] at h
      obtain ⟨sfx, hi, ⟨hlen, hle, old, hold, hn⟩, rfl, rfl⟩ := h
      exact .spill hlen hle hi hold hn
    · simp only [Option.bind_eq_some_iff, Option.ite_none_right_eq_some, Option.some.injEq,
        Prod.mk.injEq] at h
      obtain ⟨sfx, hi, ⟨rfl, hlen, hmem⟩, rfl, rfl⟩ := h
      exact .publish hlen hi hmem
    · simp only [Option.ite_none_right_eq_some, Option.some.injEq, Prod.mk.injEq] at h
      obtain ⟨⟨rfl, rfl⟩, rfl, rfl⟩ := h
      exact .glob
    · simp only [Option.ite_none_right_eq_some, Option.some.injEq, Prod.mk.injEq] at h
      obtain ⟨⟨rfl, hc⟩, rfl, rfl⟩ := h
      exact .read hc
    · simp only [Option.ite_none_right_eq_some, Option.some.injEq, Prod.mk.injEq] at h
      obtain ⟨⟨hsort, hnew⟩, rfl, rfl⟩ := h
      exact .runReduce hsort hnew
    · simp only [Option.ite_none_right_eq_some, Option.some.injEq, Prod.mk.injEq, Option.any_eq_true,
        decide_eq_true_iff] at h
      obtain ⟨⟨old, hold, hn⟩, rfl, rfl⟩ := h
      exact .spillOut hold hn
    · simp only [Option.ite_none_right_eq_some, Option.some.injEq, Prod.mk.injEq] at h
      obtain ⟨⟨rfl, hmem⟩, rfl, rfl⟩ := h
      exact .publishOut hmem
    · cases h

/-! ## Workers and coordinator -/

/-- The coordinator, the shared directory, and where each worker is. -/
structure JobState where
  coord : Coordinator
  dir : Dir
  pc : WorkerId → Pc

/-- What happens in a job: the events of the coordinator's view, and the workers' own actions. -/
inductive JobEvent where
  | assign (w : WorkerId) (now : Nat) (reply : RPCReply)
  | act (w : WorkerId) (a : Action)
  | report (w : WorkerId) (args : DoneArgs) (accepted : Bool)
  | crash (w : WorkerId)
  | tick (now : Nat) (fired : Bool)
deriving DecidableEq, Repr

/-- One step of a job. The calls are atomic, since the handlers hold the lock and a worker waits for them. -/
inductive JobStep (job : Job) : JobState → JobEvent → JobState → Prop where
  | assign {s w now} : s.pc w = .idle →
      JobStep job s (.assign w now (s.coord.assign now).2)
        ⟨(s.coord.assign now).1, s.dir, Function.update s.pc w (.afterAssign (s.coord.assign now).2)⟩
  | act {s w a pc' dir'} : WorkerStep job s.dir (s.pc w) a pc' dir' →
      JobStep job s (.act w a) ⟨s.coord, dir', Function.update s.pc w pc'⟩
  | report {s w args coord'} : (s.pc w).ready = some args →
      s.coord.reportTaskCompletion args = some coord' →
      JobStep job s (.report w args (s.coord.accepts args)) ⟨coord', s.dir, Function.update s.pc w .idle⟩
  | crash {s w} : JobStep job s (.crash w) ⟨s.coord, s.dir, Function.update s.pc w .crashed⟩
  | tick {s now} : JobStep job s (.tick now (s.coord.expires now)) ⟨s.coord.checkTimeout now, s.dir, s.pc⟩

/-- A job at its start: an empty directory, and every worker about to ask for a task. -/
def jobSys (job : Job) : LTS JobState JobEvent where
  init := ⟨makeCoordinator job.files job.nReduce, ∅, fun _ => .idle⟩
  step := JobStep job

/-- The step an event names, if it is possible: the executable form of `JobStep`. -/
def jobNext (job : Job) (s : JobState) : JobEvent → Option JobState
  | .assign w now reply =>
      if s.pc w = .idle ∧ reply = (s.coord.assign now).2 then
        some ⟨(s.coord.assign now).1, s.dir, Function.update s.pc w (.afterAssign (s.coord.assign now).2)⟩
      else none
  | .act w a =>
      (job.act s.dir (s.pc w) a).map (fun out => ⟨s.coord, out.2, Function.update s.pc w out.1⟩)
  | .report w args accepted =>
      if (s.pc w).ready = some args ∧ accepted = s.coord.accepts args then
        (s.coord.reportTaskCompletion args).map
          (fun coord' => ⟨coord', s.dir, Function.update s.pc w .idle⟩)
      else none
  | .crash w => some ⟨s.coord, s.dir, Function.update s.pc w .crashed⟩
  | .tick now fired =>
      if fired = s.coord.expires now then some ⟨s.coord.checkTimeout now, s.dir, s.pc⟩ else none

theorem jobSys_computedBy (job : Job) : (jobSys job).ComputedBy (jobNext job) := by
  intro s e s'
  constructor
  · intro h
    change JobStep job s e s' at h
    cases h with
    | assign hw => simp [jobNext, hw]
    | act ha => simp [jobNext, workerStep_iff.mp ha]
    | report hw hc => simp [jobNext, hw, hc]
    | crash => rfl
    | tick => simp [jobNext]
  · intro h
    cases e with
    | assign w now reply =>
        simp only [jobNext, Option.ite_none_right_eq_some, Option.some.injEq] at h
        obtain ⟨⟨hw, rfl⟩, rfl⟩ := h
        exact JobStep.assign hw
    | act w a =>
        simp only [jobNext, Option.map_eq_some_iff] at h
        obtain ⟨⟨pc', dir'⟩, ha, rfl⟩ := h
        exact JobStep.act (workerStep_iff.mpr ha)
    | report w args accepted =>
        simp only [jobNext, Option.ite_none_right_eq_some, Option.map_eq_some_iff] at h
        obtain ⟨⟨hw, rfl⟩, coord', hc, rfl⟩ := h
        exact JobStep.report hw hc
    | crash w =>
        obtain rfl := Option.some.inj h
        exact JobStep.crash
    | tick now fired =>
        simp only [jobNext, Option.ite_none_right_eq_some, Option.some.injEq] at h
        obtain ⟨rfl, rfl⟩ := h
        exact JobStep.tick

/-- The invariant rule for what is said of every worker's program point: a step moves one worker, to one of
    these points. -/
theorem JobStep.forall_pc {job : Job} {s s' : JobState} {e : JobEvent} (hs : JobStep job s e s')
    {P : Pc → Prop} (hold : ∀ v, P (s.pc v)) (hidle : P .idle) (hcrashed : P .crashed)
    (hassign : ∀ now, P (.afterAssign (s.coord.assign now).2))
    (hact : ∀ w a pc' dir', e = .act w a → WorkerStep job s.dir (s.pc w) a pc' dir' →
      s' = ⟨s.coord, dir', Function.update s.pc w pc'⟩ → P pc') :
    ∀ v, P (s'.pc v) := by
  have hupdate : ∀ {w : WorkerId} {pc' : Pc}, P pc' → ∀ v, P (Function.update s.pc w pc' v) :=
    fun hpc' => (Function.forall_update_iff s.pc (fun _ => P)).mpr ⟨hpc', fun v _ => hold v⟩
  cases hs with
  | assign _ => exact hupdate (hassign _)
  | act ha => exact hupdate (hact _ _ _ _ rfl ha rfl)
  | report _ _ => exact hupdate hidle
  | crash => exact hupdate hcrashed
  | tick => exact hold

/-! ## Down to the coordinator's view -/

theorem afterAssign_held (reply : RPCReply) : (Pc.afterAssign reply).held = reply.pending := by
  obtain ⟨type, file, nReduce, id, attempt⟩ := reply
  cases type <;> rfl

theorem held_of_ready {pc : Pc} {args : DoneArgs} (h : pc.ready = some args) : pc.held = some args := by
  cases pc with
  | mapWriting reply kva temps published =>
      simp only [Pc.ready, Option.ite_none_right_eq_some] at h
      exact h.2
  | reducePublished reply => exact h
  | _ => cases h

/-- A worker's own actions do not change which task it is at. -/
theorem WorkerStep.held {job : Job} {dir dir' : Dir} {pc pc' : Pc} {a : Action}
    (h : WorkerStep job dir pc a pc' dir') : pc'.held = pc.held := by
  cases h <;> rfl

/-- What the coordinator knows of a state of the job. -/
def JobState.view (s : JobState) : State := ⟨s.coord, fun w => (s.pc w).held⟩

/-- An event as the coordinator sees it: a worker's own actions are invisible to it. -/
def JobEvent.rpc? : JobEvent → Option Event
  | .assign w now reply => some (.assign w now reply)
  | .act _ _ => none
  | .report w args accepted => some (.report w args accepted)
  | .crash w => some (.crash w)
  | .tick now fired => some (.tick now fired)

theorem held_update (pc : WorkerId → Pc) (w : WorkerId) (pc' : Pc) :
    (fun v => (Function.update pc w pc' v).held)
      = Function.update (fun v => (pc v).held) w pc'.held := by
  funext v
  by_cases hv : v = w
  · subst hv
    rw [Function.update_self, Function.update_self]
  · rw [Function.update_of_ne hv, Function.update_of_ne hv]

/-- Workers with their files are workers. -/
def jobProjection (job : Job) : Projection (jobSys job) (coordSys job.files job.nReduce) where
  state := JobState.view
  label := JobEvent.rpc?
  init := rfl
  stutter := by
    intro s e s' h hl
    change JobStep job s e s' at h
    cases h with
    | @act w a pc' dir' ha =>
        unfold JobState.view
        rw [held_update, ha.held]
        exact congrArg (State.mk s.coord) (Function.update_eq_self w _)
    | assign _ => cases hl
    | report _ _ => cases hl
    | crash => cases hl
    | tick => cases hl
  step := by
    intro s e s' e' h hl
    change JobStep job s e s' at h
    unfold JobState.view
    cases h with
    | assign hw =>
        obtain rfl := Option.some.inj hl
        rw [held_update, afterAssign_held]
        exact Step.assign (by simp [hw, Pc.held])
    | act _ => cases hl
    | report hw hc =>
        obtain rfl := Option.some.inj hl
        rw [held_update]
        exact Step.report (held_of_ready hw) hc
    | crash =>
        obtain rfl := Option.some.inj hl
        rw [held_update]
        exact Step.crash
    | tick =>
        obtain rfl := Option.some.inj hl
        exact Step.tick

/-- What the coordinator sees of a run. -/
def coordTrace (tr : List JobEvent) : List Event := tr.filterMap JobEvent.rpc?

theorem reaches_view {job : Job} {tr : List JobEvent} {s : JobState} (h : Reaches (jobSys job) tr s) :
    Reaches (coordSys job.files job.nReduce) (coordTrace tr) s.view :=
  (jobProjection job).reaches h

/-! ## What an action does to the directory -/

theorem lookup_publish_self (dir : Dir) (temp name : String) (content : List Char) :
    (dir.publish temp name content).lookup name = some content :=
  AList.lookup_insert _

theorem lookup_publish_ne {dir : Dir} {temp name name' : String} (content : List Char)
    (hname : name' ≠ name) (htemp : name' ≠ temp) :
    (dir.publish temp name content).lookup name' = dir.lookup name' := by
  unfold Dir.publish
  rw [AList.lookup_insert_ne hname, AList.lookup_erase_ne htemp]

section Directory

variable {job : Job} {dir dir' : Dir} {pc pc' : Pc} {a : Action}

/-- A file that is not a temporary one is left alone, or is what the worker publishes. -/
theorem WorkerStep.lookup_cases (h : WorkerStep job dir pc a pc' dir') {name : String}
    (hmap : ∀ i sfx, name ≠ mapTempName i sfx) (hreduce : ∀ r sfx, name ≠ reduceTempName r sfx) :
    dir'.lookup name = dir.lookup name
    ∨ (∃ reply kva temps i, pc = .mapWriting reply kva temps i ∧ a = .publish i
        ∧ name = intermediateName reply.taskId i ∧ i < reply.nReduce
        ∧ dir'.lookup name = some (mapBuffer reply kva i))
    ∨ ∃ reply out sfx, pc = .reduceWriting reply out sfx ∧ a = .publishOut reply.taskId
        ∧ name = outName reply.taskId ∧ dir'.lookup name = some out := by
  cases h with
  | runMap _ _ _ => exact Or.inl rfl
  | createTemp _ _ => exact Or.inl (AList.lookup_insert_ne (hmap _ _))
  | spill _ _ _ _ _ => exact Or.inl (AList.lookup_insert_ne (hmap _ _))
  | @publish reply kva temps i sfx hlen hi _ =>
      by_cases hsame : name = intermediateName reply.taskId i
      · subst hsame
        have hlt : i < reply.nReduce := hlen ▸ (List.getElem?_eq_some_iff.mp hi).1
        exact Or.inr (Or.inl ⟨reply, kva, temps, i, rfl, rfl, rfl, hlt, lookup_publish_self ..⟩)
      · exact Or.inl (lookup_publish_ne _ hsame (hmap _ _))
  | glob => exact Or.inl rfl
  | read _ => exact Or.inl rfl
  | runReduce _ _ => exact Or.inl (AList.lookup_insert_ne (hreduce _ _))
  | spillOut _ _ => exact Or.inl (AList.lookup_insert_ne (hreduce _ _))
  | @publishOut reply out sfx _ =>
      by_cases hsame : name = outName reply.taskId
      · subst hsame
        exact Or.inr (Or.inr ⟨reply, out, sfx, rfl, rfl, rfl, lookup_publish_self ..⟩)
      · exact Or.inl (lookup_publish_ne _ hsame (hreduce _ _))

/-- An intermediate file changes only when a worker at its map task publishes it. -/
theorem WorkerStep.lookup_intermediate (h : WorkerStep job dir pc a pc' dir') (m r : Nat) :
    dir'.lookup (intermediateName m r) = dir.lookup (intermediateName m r)
    ∨ ∃ reply kva temps, pc = .mapWriting reply kva temps r ∧ a = .publish r ∧ reply.taskId = m
      ∧ r < reply.nReduce ∧ dir'.lookup (intermediateName m r) = some (mapBuffer reply kva r) := by
  rcases h.lookup_cases (intermediateName_ne_mapTempName m r) (intermediateName_ne_reduceTempName m r) with
    hsame | ⟨reply, kva, temps, i, hpc, ha, hname, hlt, hnew⟩ | ⟨reply, out, sfx, _, _, hname, _⟩
  · exact Or.inl hsame
  · obtain ⟨hm, rfl⟩ : m = reply.taskId ∧ r = i := by simpa using hname
    exact Or.inr ⟨reply, kva, temps, hpc, ha, hm.symm, hlt, hnew⟩
  · exact absurd hname (intermediateName_ne_outName _ _ _)

/-- An output file changes only when a worker at its reduce task publishes it. -/
theorem WorkerStep.lookup_out (h : WorkerStep job dir pc a pc' dir') (r : Nat) :
    dir'.lookup (outName r) = dir.lookup (outName r)
    ∨ ∃ reply out sfx, pc = .reduceWriting reply out sfx ∧ a = .publishOut r ∧ reply.taskId = r
      ∧ dir'.lookup (outName r) = some out := by
  rcases h.lookup_cases (outName_ne_mapTempName r) (outName_ne_reduceTempName r) with
    hsame | ⟨reply, kva, temps, i, _, _, hname, _⟩ | ⟨reply, out, sfx, hpc, ha, hname, hnew⟩
  · exact Or.inl hsame
  · exact absurd hname.symm (intermediateName_ne_outName _ _ _)
  · obtain rfl : r = reply.taskId := by simpa using hname
    exact Or.inr ⟨reply, out, sfx, hpc, ha, rfl, hnew⟩

end Directory

end MapReduce
end DistributedLabs
