import DistributedLabs.MapReduce.Worker

/-!
# `MapReduce.Intermediate` — what is published stays, and is right

A map task publishes its buckets by one rename each and reports afterwards. The report is accepted only if the
attempt is still the task's own, but the files are there whether it is or not, and workers that are late keep
renaming over them. So nothing is said here about who published a file: an intermediate file may be missing
while its task is not completed, but whenever it is there it holds the bucket of some result of the map
function (`JobOk.intermediate`), and it never goes away (`Later`). With a deterministic map function there is
only one such result, and late workers replace a file by itself.

The invariant `JobOk` is proved with the coordinator's invariants at hand: `jobProjection` makes every run of a
job one of `coordSys`, where `HeldOk` and `PhaseOk` hold. A worker's program point says how far it has got
(`PcOk`), and `Later` carries what it says over the steps of the others.
-/

namespace DistributedLabs
namespace MapReduce

open Lib

/-! ## What no step undoes -/

/-- `s'` has the published files of `s`, and is past the map phase if `s` is. -/
structure Later (s s' : JobState) : Prop where
  intermediate : ∀ {m r}, intermediateName m r ∈ s.dir → intermediateName m r ∈ s'.dir
  out : ∀ {r}, outName r ∈ s.dir → outName r ∈ s'.dir
  pastMap : s.coord.phase ≠ .map → s'.coord.phase ≠ .map

theorem Later.refl (s : JobState) : Later s s := ⟨id, id, id⟩

theorem Later.trans {s s' s'' : JobState} (h : Later s s') (h' : Later s' s'') : Later s s'' :=
  ⟨fun hm => h'.intermediate (h.intermediate hm), fun hr => h'.out (h.out hr),
    fun hp => h'.pastMap (h.pastMap hp)⟩

theorem mem_iff_lookup {dir : Dir} {name : String} : name ∈ dir ↔ ∃ c, dir.lookup name = some c := by
  rw [← AList.lookup_isSome, Option.isSome_iff_exists]

theorem WorkerStep.mem_intermediate {job : Job} {dir dir' : Dir} {pc pc' : Pc} {a : Action}
    (h : WorkerStep job dir pc a pc' dir') {m r : Nat} (hmem : intermediateName m r ∈ dir) :
    intermediateName m r ∈ dir' := by
  rw [mem_iff_lookup] at hmem ⊢
  rcases h.lookup_intermediate m r with hsame | ⟨_, _, _, _, _, _, _, hnew⟩
  · rwa [hsame]
  · exact ⟨_, hnew⟩

theorem WorkerStep.mem_out {job : Job} {dir dir' : Dir} {pc pc' : Pc} {a : Action}
    (h : WorkerStep job dir pc a pc' dir') {r : Nat} (hmem : outName r ∈ dir) : outName r ∈ dir' := by
  rw [mem_iff_lookup] at hmem ⊢
  rcases h.lookup_out r with hsame | ⟨_, _, _, _, _, _, hnew⟩
  · rwa [hsame]
  · exact ⟨_, hnew⟩

/-- A step of the job is a step of the coordinator's view, or an action of a worker. -/
theorem JobStep.view {job : Job} {s s' : JobState} {e : JobEvent} (h : JobStep job s e s') :
    (∃ e', e.rpc? = some e' ∧ Step s.view e' s'.view ∧ s'.dir = s.dir)
    ∨ ∃ w a pc' dir', e = .act w a ∧ WorkerStep job s.dir (s.pc w) a pc' dir'
      ∧ s' = ⟨s.coord, dir', Function.update s.pc w pc'⟩ := by
  cases hl : e.rpc? with
  | some e' =>
      refine Or.inl ⟨e', rfl, (jobProjection job).step h hl, ?_⟩
      cases h with
      | act _ => cases hl
      | _ => rfl
  | none =>
      right
      cases h with
      | act ha => exact ⟨_, _, _, _, rfl, ha, rfl⟩
      | _ => cases hl

theorem pastMap_step {s s' : State} {e : Event} (hH : HeldOk s) (hP : PhaseOk s.coord) (hs : Step s e s')
    (hpast : s.coord.phase ≠ .map) : s'.coord.phase ≠ .map := by
  have hmove := phaseMove_of_step hH hP hs
  intro hmap
  rw [hmap] at hmove
  cases hp : s.coord.phase with
  | map => exact hpast hp
  | reduce => rw [hp] at hmove; cases hmove
  | allDone => rw [hp] at hmove; cases hmove

theorem later_step {job : Job} {tr : List JobEvent} {s s' : JobState} {e : JobEvent}
    (h : Reaches (jobSys job) tr s) (hs : JobStep job s e s') : Later s s' := by
  rcases hs.view with ⟨e', _, hstep, hdir⟩ | ⟨w, a, pc', dir', _, ha, rfl⟩
  · have hview := reaches_view h
    refine ⟨fun hm => by rwa [hdir], fun hr => by rwa [hdir], ?_⟩
    exact pastMap_step (heldOk hview) (phaseOk hview) hstep
  · exact ⟨ha.mem_intermediate, ha.mem_out, id⟩

theorem later_run {job : Job} {tr tr' : List JobEvent} {s s' : JobState}
    (h : Reaches (jobSys job) tr s) (hrun : Run (jobSys job) s tr' s') : Later s s' :=
  Run.invariant (P := fun _ s' => Later s s') (Later.refl s)
    (fun _ _ _ _ hpre ih hs => ih.trans (later_step (h.append hpre) hs)) hrun

/-! ## The invariant -/

/-- A result the map function may have for map task `m`. -/
def Job.Emitted (job : Job) (m : Nat) (kva : List KeyValue) : Prop :=
  ∃ file content, job.files[m]? = some file ∧ job.input file = some content
    ∧ job.emits file content kva = true

/-- A reply that hands out a map task of the job. -/
def Job.HandsOutMap (job : Job) (reply : RPCReply) : Prop :=
  reply.nReduce = job.nReduce ∧ job.files[reply.taskId]? = some reply.mapFile

/-- A worker at a reduce task: there are such workers only after the map phase. -/
def Job.AtReduce (job : Job) (s : JobState) (reply : RPCReply) : Prop :=
  s.coord.phase ≠ .map ∧ reply.taskId < job.nReduce

/-- What a worker's program point says about the state it is in. -/
def PcOk (job : Job) (s : JobState) : Pc → Prop
  | .idle => True
  | .exited => True
  | .crashed => True
  | .mapAssigned reply => job.HandsOutMap reply
  | .mapWriting reply kva _ published => job.HandsOutMap reply ∧ job.Emitted reply.taskId kva
      ∧ ∀ r < published, intermediateName reply.taskId r ∈ s.dir
  | .reduceAssigned reply => job.AtReduce s reply
  | .reduceReading reply _ _ => job.AtReduce s reply
  | .reduceWriting reply _ _ => job.AtReduce s reply
  | .reducePublished reply => job.AtReduce s reply ∧ outName reply.taskId ∈ s.dir

/-- What a program point says stays true while others act. -/
theorem PcOk.later {job : Job} {s s' : JobState} (hlater : Later s s') {pc : Pc} (h : PcOk job s pc) :
    PcOk job s' pc := by
  have hreduce : ∀ {reply}, job.AtReduce s reply → job.AtReduce s' reply :=
    fun hat => ⟨hlater.pastMap hat.1, hat.2⟩
  cases pc with
  | idle => trivial
  | exited => trivial
  | crashed => trivial
  | mapAssigned reply => exact h
  | mapWriting reply kva temps published =>
      obtain ⟨hreply, hkva, hfiles⟩ := h
      exact ⟨hreply, hkva, fun r hr => hlater.intermediate (hfiles r hr)⟩
  | reduceAssigned reply => exact hreduce h
  | reduceReading reply todo kva => exact hreduce h
  | reduceWriting reply out sfx => exact hreduce h
  | reducePublished reply => exact ⟨hreduce h.1, hlater.out h.2⟩

/-- The files a completed task has published. -/
def Published (job : Job) (dir : Dir) : Kind → Nat → Prop
  | .map, m => ∀ r < job.nReduce, intermediateName m r ∈ dir
  | .reduce, r => outName r ∈ dir

theorem Published.later {job : Job} {s s' : JobState} (hlater : Later s s') {k : Kind} {i : Nat}
    (h : Published job s.dir k i) : Published job s'.dir k i := by
  cases k with
  | map => exact fun r hr => hlater.intermediate (h r hr)
  | reduce => exact hlater.out h

/-- The invariant: what workers believe is so, every intermediate file is right, and completed tasks are published. -/
structure JobOk (job : Job) (s : JobState) : Prop where
  pc : ∀ w, PcOk job s (s.pc w)
  intermediate : ∀ {m r : Nat} {c : List Char}, s.dir.lookup (intermediateName m r) = some c →
    r < job.nReduce ∧ ∃ kva, job.Emitted m kva ∧ c = encodeRecords (inBucket job.nReduce r kva)
  completed : ∀ {k : Kind} {i : Nat} {task : Task}, (s.coord.tasks k)[i]? = some task →
    task.state = .completed → Published job s.dir k i

theorem jobOk_init (job : Job) : JobOk job (jobSys job).init := by
  refine ⟨fun w => trivial, fun hc => by simp [jobSys] at hc, fun {k i task} ht hdone => ?_⟩
  -- no task is completed at the start
  rw [(makeCoordinator_task ht).1] at hdone
  cases hdone

/-! ## One step -/

/-- What a worker has to report is published. -/
theorem PcOk.published {job : Job} {s : JobState} {pc : Pc} (h : PcOk job s pc) {k : Kind} {i attempt : Nat}
    (hready : pc.ready = some ⟨k.taskType, i, attempt⟩) : Published job s.dir k i := by
  cases pc with
  | mapWriting reply kva temps published =>
      simp only [Pc.ready, Option.ite_none_right_eq_some] at hready
      obtain ⟨⟨_, rfl⟩, hargs⟩ := hready
      obtain ⟨hk, rfl, _⟩ := DoneArgs.mk.inj (Option.some.inj hargs)
      obtain rfl : Kind.map = k := taskType_inj hk
      obtain ⟨⟨hn, _⟩, _, hfiles⟩ := h
      exact fun r hr => hfiles r (hn ▸ hr)
  | reducePublished reply =>
      obtain ⟨hk, rfl, _⟩ := DoneArgs.mk.inj (Option.some.inj hready)
      obtain rfl : Kind.reduce = k := taskType_inj hk
      exact h.2
  | _ => cases hready

/-- What a worker may believe of the task it has just been given. -/
theorem pcOk_afterAssign {job : Job} {tr : List JobEvent} {s : JobState} (h : Reaches (jobSys job) tr s)
    (now : Nat) : PcOk job s (.afterAssign (s.coord.assign now).2) := by
  have hview := reaches_view h
  rcases assign_cases s.coord now with ⟨k, task, i, hk, hi, _, _, hreply⟩ | ⟨_, hreply⟩
  · rw [hreply]
    cases k with
    | map => exact ⟨(tablesOk hview).nReduce_eq, (tablesOk hview).file hi⟩
    | reduce =>
        refine ⟨fun hmap => ?_, ?_⟩
        · rw [hmap] at hk
          cases hk
        · rw [← (tasks_length hview).2]
          exact (List.getElem?_eq_some_iff.mp hi).1
  · rcases afterAssign_of_none hreply with hpc | hpc <;> rw [hpc] <;> trivial

/-- A worker's own actions keep what its program point says. -/
theorem pcOk_act {job : Job} {s : JobState} {w : WorkerId} {a : Action} {pc pc' : Pc} {dir' : Dir}
    (hpc : PcOk job s pc) (ha : WorkerStep job s.dir pc a pc' dir') :
    PcOk job ⟨s.coord, dir', Function.update s.pc w pc'⟩ pc' := by
  have hkeep : ∀ {m r : Nat}, intermediateName m r ∈ s.dir → intermediateName m r ∈ dir' :=
    ha.mem_intermediate
  cases ha with
  | runMap hin hem _ => exact ⟨hpc, ⟨_, _, hpc.2, hin, hem⟩, fun r hr => absurd hr (Nat.not_lt_zero r)⟩
  | createTemp _ _ => exact ⟨hpc.1, hpc.2.1, fun r hr => absurd hr (Nat.not_lt_zero r)⟩
  | spill _ _ _ _ _ =>
      obtain ⟨hreply, hkva, hfiles⟩ := hpc
      exact ⟨hreply, hkva, fun r hr => hkeep (hfiles r hr)⟩
  | publish _ _ _ =>
      obtain ⟨hreply, hkva, hfiles⟩ := hpc
      refine ⟨hreply, hkva, fun r hr => ?_⟩
      rcases Nat.lt_succ_iff_lt_or_eq.mp hr with hlt | rfl
      · exact hkeep (hfiles r hlt)
      · exact mem_iff_lookup.mpr ⟨_, lookup_publish_self ..⟩
  | glob => exact hpc
  | read _ => exact hpc
  | runReduce _ _ => exact hpc
  | spillOut _ _ => exact hpc
  | publishOut _ => exact ⟨hpc, mem_iff_lookup.mpr ⟨_, lookup_publish_self ..⟩⟩

theorem pcOk_step {job : Job} {tr : List JobEvent} {s s' : JobState} {e : JobEvent}
    (h : Reaches (jobSys job) tr s) (hok : JobOk job s) (hs : JobStep job s e s') (v : WorkerId) :
    PcOk job s' (s'.pc v) := by
  have hlater := later_step h hs
  refine hs.forall_pc (P := PcOk job s') (fun v => (hok.pc v).later hlater) trivial trivial
    (fun now => (pcOk_afterAssign h now).later hlater) ?_ v
  intro w a pc' dir' _ ha hs'
  rw [hs']
  exact pcOk_act (hok.pc w) ha

theorem mapBuffer_eq {reply : RPCReply} {r : Nat} (hr : r < reply.nReduce) (kva : List KeyValue) :
    mapBuffer reply kva r = encodeRecords (inBucket reply.nReduce r kva) := by
  unfold mapBuffer
  rw [encodeBuckets_get hr, Option.getD_some]

theorem intermediate_step {job : Job} {s s' : JobState} {e : JobEvent} (hok : JobOk job s)
    (hs : JobStep job s e s') {m r : Nat} {c : List Char}
    (hc : s'.dir.lookup (intermediateName m r) = some c) :
    r < job.nReduce ∧ ∃ kva, job.Emitted m kva ∧ c = encodeRecords (inBucket job.nReduce r kva) := by
  rcases hs.view with ⟨_, _, _, hdir⟩ | ⟨w, a, pc', dir', _, ha, rfl⟩
  · rw [hdir] at hc
    exact hok.intermediate hc
  · rcases ha.lookup_intermediate m r with hsame | ⟨reply, kva, temps, hpc, _, rfl, hr, hnew⟩
    · exact hok.intermediate (hsame ▸ hc)
    · have hw := hok.pc w
      rw [hpc] at hw
      obtain ⟨⟨hn, _⟩, hkva, _⟩ := hw
      refine ⟨hn ▸ hr, kva, hkva, ?_⟩
      rw [← Option.some.inj (hnew.symm.trans hc), mapBuffer_eq hr, hn]

theorem JobStep.ready_of_report {job : Job} {s s' : JobState} {w : WorkerId} {args : DoneArgs}
    {e : JobEvent} {accepted : Bool} (h : JobStep job s e s')
    (he : e.rpc? = some (.report w args accepted)) : (s.pc w).ready = some args := by
  cases h with
  | report hw _ =>
      obtain ⟨rfl, rfl, _⟩ := Event.report.inj (Option.some.inj he)
      exact hw
  | _ => cases he

/-- After every step the completed tasks are published. -/
theorem completed_published_step {job : Job} {tr : List JobEvent} {s s' : JobState} {e : JobEvent}
    (h : Reaches (jobSys job) tr s) (hok : JobOk job s) (hs : JobStep job s e s') {k : Kind} {i : Nat}
    {task' : Task} (ht' : (s'.coord.tasks k)[i]? = some task') (hdone : task'.state = .completed) :
    Published job s'.dir k i := by
  have hlater := later_step h hs
  rcases hs.view with ⟨e', he', hstep, _⟩ | ⟨w, a, pc', dir', _, _, rfl⟩
  · obtain ⟨task, ht, hmove⟩ := step_task_back hstep ht'
    cases hmove with
    | same _ _ => exact (hok.completed ht hdone).later hlater
    | started _ _ => cases hdone
    | @completed w _ =>
        -- the files of the report were published before it was made
        exact ((hok.pc w).published (hs.ready_of_report he')).later hlater
    | expired _ _ => cases hdone
  · exact (hok.completed ht' hdone).later hlater

theorem jobOk {job : Job} {tr : List JobEvent} {s : JobState} (h : Reaches (jobSys job) tr s) :
    JobOk job s :=
  Reaches.invariant (P := fun _ s => JobOk job s) (jobOk_init job)
    (fun _ _ _ _ hrun ih hs =>
      ⟨pcOk_step hrun ih hs, intermediate_step ih hs, completed_published_step hrun ih hs⟩) h

/-! ## After the map phase -/

/-- All tasks of a completed table are published. -/
theorem published_of_complete {job : Job} {tr : List JobEvent} {s : JobState} (h : Reaches (jobSys job) tr s)
    {k : Kind} (hcomp : s.coord.Complete k) {i : Nat} (hi : i < (s.coord.tasks k).length) :
    Published job s.dir k i := by
  have ht := List.getElem?_eq_getElem hi
  exact (jobOk h).completed ht (Complete.get hcomp ht)

/-- After the map phase all intermediate files are there. -/
theorem mem_of_pastMap {job : Job} {tr : List JobEvent} {s : JobState} (h : Reaches (jobSys job) tr s)
    (hpast : s.coord.phase ≠ .map) {m r : Nat} (hm : m < job.files.length) (hr : r < job.nReduce) :
    intermediateName m r ∈ s.dir := by
  have hview := reaches_view h
  rw [← (tasks_length hview).1] at hm
  exact published_of_complete h ((phaseOk hview).afterMap hpast) hm r hr

/-- After the map phase all input files have been read. -/
theorem input_of_pastMap {job : Job} {tr : List JobEvent} {s : JobState} (h : Reaches (jobSys job) tr s)
    (hpast : s.coord.phase ≠ .map) (hn : 1 ≤ job.nReduce) {m : Nat} {file : String}
    (hm : job.files[m]? = some file) : ∃ content, job.input file = some content := by
  have hmem := mem_of_pastMap h hpast (List.getElem?_eq_some_iff.mp hm).1 hn
  obtain ⟨c, hc⟩ := mem_iff_lookup.mp hmem
  obtain ⟨_, _, ⟨file', content, hm', hin, _⟩, _⟩ := (jobOk h).intermediate hc
  obtain rfl := Option.some.inj (hm'.symm.trans hm)
  exact ⟨content, hin⟩

/-- With a map function that is one, an intermediate file has only one possible content. -/
theorem content_of_deterministic {job : Job} {mapf : String → String → List KeyValue}
    (hdet : job.Deterministic mapf) {tr : List JobEvent} {s : JobState} (h : Reaches (jobSys job) tr s)
    {m r : Nat} {file content : String} {c : List Char} (hm : job.files[m]? = some file)
    (hin : job.input file = some content) (hc : s.dir.lookup (intermediateName m r) = some c) :
    c = encodeRecords (inBucket job.nReduce r (mapf file content)) := by
  obtain ⟨_, kva, ⟨file', content', hm', hin', hem⟩, rfl⟩ := (jobOk h).intermediate hc
  obtain rfl := Option.some.inj (hm'.symm.trans hm)
  obtain rfl := Option.some.inj (hin'.symm.trans hin)
  rw [(hdet _ _ _).mp hem]

/-- **Intermediate data is complete and stays intact.** Once the reduce phase has begun, every intermediate
    file is there and decodes to the records of its bucket, and no later step changes it. -/
theorem intermediate_complete {job : Job} {mapf : String → String → List KeyValue}
    (hdet : job.Deterministic mapf) {tr : List JobEvent} {s : JobState} (h : Reaches (jobSys job) tr s)
    (hpast : s.coord.phase ≠ .map) {m r : Nat} {file : String} (hm : job.files[m]? = some file)
    (hr : r < job.nReduce) :
    ∃ content c, job.input file = some content ∧ s.dir.lookup (intermediateName m r) = some c
      ∧ decodeStream c = (mapf file content).filter (fun kv => ihash kv.key % job.nReduce = r)
      ∧ ∀ tr' s', Run (jobSys job) s tr' s' → s'.dir.lookup (intermediateName m r) = some c := by
  have hmem := mem_of_pastMap h hpast (List.getElem?_eq_some_iff.mp hm).1 hr
  obtain ⟨c, hc⟩ := mem_iff_lookup.mp hmem
  obtain ⟨content, hin⟩ := input_of_pastMap h hpast (Nat.one_le_of_lt hr) hm
  have hcontent := content_of_deterministic hdet h hm hin hc
  refine ⟨content, c, hin, hc, ?_, fun tr' s' hrun => ?_⟩
  · rw [hcontent, decodeStream_encodeRecords]
    rfl
  · obtain ⟨c', hc'⟩ := mem_iff_lookup.mp ((later_run h hrun).intermediate hmem)
    rw [hc', content_of_deterministic hdet (h.append hrun) hm hin hc', hcontent]

/-! A job with one file and one reduce task, whose map function emits one record. -/

/-- Its map function. -/
def demoMapf (key _ content : String) : List KeyValue := [⟨key, content⟩]

/-- The job, with the key of the record as a parameter. -/
def demoJob (key : String) : Job where
  files := ["in"]
  nReduce := 1
  input file := if file = "in" then some "x" else none
  emits file content kva := kva = demoMapf key file content
  reducef _ values := toString values.length

theorem demoJob_deterministic (key : String) : (demoJob key).Deterministic (demoMapf key) := by
  intro file content kva
  exact decide_eq_true_iff

/-- Worker 0 is so slow that its map task is done by worker 1; in the reduce phase it publishes all the same. -/
def lateMapTrace : List JobEvent :=
  [.assign 0 0 ⟨.map, "in", 1, 0, 0⟩, .act 0 (.runMap [⟨"word", "x"⟩]), .act 0 (.createTemp 7),
    .tick 11000000000 true, .assign 1 12000000000 ⟨.map, "in", 1, 0, 1⟩,
    .act 1 (.runMap [⟨"word", "x"⟩]), .act 1 (.createTemp 8), .act 1 (.publish 0),
    .report 1 ⟨.map, 0, 1⟩ true, .act 0 (.publish 0), .report 0 ⟨.map, 0, 0⟩ false]

/-- The file is still there and still right when the late worker has published. -/
theorem intermediate_complete_lateMap :
    ∃ s, Reaches (jobSys (demoJob "word")) lateMapTrace s ∧ s.coord.phase ≠ .map
      ∧ ∃ content c, (demoJob "word").input "in" = some content
        ∧ s.dir.lookup (intermediateName 0 0) = some c
        ∧ decodeStream c
          = (demoMapf "word" "in" content).filter (fun kv => ihash kv.key % (demoJob "word").nReduce = 0)
        ∧ ∀ tr' s', Run (jobSys (demoJob "word")) s tr' s' →
          s'.dir.lookup (intermediateName 0 0) = some c := by
  have hrun : ∃ s, Reaches (jobSys (demoJob "word")) lateMapTrace s
      ∧ decide (s.coord.phase ≠ .map) = true :=
    exists_reaches_with (jobSys_computedBy _) _ (by decide +kernel)
  obtain ⟨s, h, hs⟩ := hrun
  have hpast : s.coord.phase ≠ .map := of_decide_eq_true hs
  exact ⟨s, h, hpast, intermediate_complete (demoJob_deterministic "word") h hpast rfl (by decide)⟩

end MapReduce
end DistributedLabs
