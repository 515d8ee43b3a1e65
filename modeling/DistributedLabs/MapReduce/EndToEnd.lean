import DistributedLabs.MapReduce.Rerun

/-!
# `MapReduce.EndToEnd` — a finished job has written what the sequential program writes

The two provisos under which a job is right whatever crashes and delays there are: no attempt of a reduce task
lists its input after an attempt of the same task has published its output, and no random number in the name
of a temporary file is the number of a reduce task. Under them no worker ever lists a foreign file
(`inputOnly`), so every published output is the text of its bucket (`attemptsOk`), and what is left to show is
that the buckets together give the lines of `mrsequential` (`partitioned_lines`).

The second proviso is about the random numbers of `os.CreateTemp` and fails by chance only. The first may well fail:
when the report of a reduce task is lost or late, a second attempt starts after the first has published.
`MapReduce.Rerun` says what happens then.
-/

namespace DistributedLabs
namespace MapReduce

open Lib

/-! ## The sequential program -/

/-- The first loop of `mrsequential`: the output of all map calls, or `none` if a file cannot be read. -/
def mrsequentialMap (job : Job) (mapf : String → String → List KeyValue) : Option (List KeyValue) :=
  job.files.foldlM (fun intermediate filename =>
    (job.input filename).map (fun content => intermediate ++ mapf filename content)) []

/-- A text that `mrsequential` may write for the files of a job. -/
def Mrsequential (job : Job) (mapf : String → String → List KeyValue) (ofile : List Char) : Prop :=
  ∃ intermediate sorted, mrsequentialMap job mapf = some intermediate ∧ SortsTo intermediate sorted
    ∧ ofile = reduceOutput job.reducef sorted

/-- The output of the map calls on a list of files. -/
def Job.mapAll (job : Job) (mapf : String → String → List KeyValue) (files : List String) : List KeyValue :=
  files.flatMap (fun file => ((job.input file).map (mapf file)).getD [])

section Sequential

variable {job : Job} {mapf : String → String → List KeyValue}

/-- The first loop of `mrsequential` from any intermediate slice on. -/
theorem foldlM_mapAll {files : List String} (hread : ∀ file ∈ files, (job.input file).isSome = true)
    (acc : List KeyValue) :
    files.foldlM (fun intermediate filename =>
        (job.input filename).map (fun content => intermediate ++ mapf filename content)) acc
      = some (acc ++ job.mapAll mapf files) := by
  induction files generalizing acc with
  | nil => simp [Job.mapAll]
  | cons file files ih =>
      obtain ⟨content, hin⟩ := Option.isSome_iff_exists.mp (hread file (List.mem_cons_self ..))
      have hrest := ih (fun file' hmem => hread file' (List.mem_cons_of_mem _ hmem))
      rw [List.foldlM_cons, hin]
      show List.foldlM _ (acc ++ mapf file content) files = _
      rw [hrest]
      simp [Job.mapAll, hin]

theorem mrsequentialMap_eq (hread : ∀ file ∈ job.files, (job.input file).isSome = true) :
    mrsequentialMap job mapf = some (job.mapAll mapf job.files) :=
  foldlM_mapAll hread []

/-- The output of a map task is that of the map call on its file. -/
theorem mapResult_eq (m : Nat) :
    job.mapResult mapf m
      = ((job.files[m]?).map (fun file => ((job.input file).map (mapf file)).getD [])).getD [] := by
  unfold Job.mapResult
  cases job.files[m]? with
  | none => rfl
  | some file =>
      cases hin : job.input file with
      | none => simp [hin]
      | some content => simp [hin]

theorem range_flatMap_getElem? {α β : Type} (f : α → List β) (l : List α) :
    (List.range l.length).flatMap (fun m => ((l[m]?).map f).getD []) = l.flatMap f := by
  induction l with
  | nil => rfl
  | cons a l ih =>
      rw [List.length_cons, List.range_succ_eq_map, List.flatMap_cons, List.flatMap_map, List.flatMap_cons]
      exact congrArg (f a ++ ·) ih

/-- The input of a reduce task is its bucket of all that is emitted. -/
theorem reduceInput_eq (r : Nat) :
    job.reduceInput mapf r = inBucket job.nReduce r (job.mapAll mapf job.files) := by
  have hall : job.mapAll mapf job.files = (List.range job.files.length).flatMap (job.mapResult mapf) := by
    rw [Job.mapAll, ← range_flatMap_getElem?]
    exact List.flatMap_congr (fun m _ => (mapResult_eq m).symm)
  rw [hall]
  unfold Job.reduceInput Job.part inBucket
  rw [List.filter_flatMap]

end Sequential

/-! ## The provisos -/

/-- The reduce task whose input an event lists. -/
def JobEvent.lists : JobEvent → Option Nat
  | .act _ (.glob r _) => some r
  | _ => none

/-- The reduce task whose output an event publishes. -/
def JobEvent.publishes : JobEvent → Option Nat
  | .act _ (.publishOut r) => some r
  | _ => none

/-- The random number an event puts into the name of a temporary file. -/
def JobEvent.suffix : JobEvent → Option Nat
  | .act _ (.createTemp sfx) => some sfx
  | .act _ (.runReduce _ sfx) => some sfx
  | _ => none

/-- The two provisos on a run. -/
structure Provisos (nReduce : Nat) (tr : List JobEvent) : Prop where
  /-- No listing for a task comes after a publication of the task. -/
  listsFirst : tr.Pairwise (fun e e' => ¬ (e.publishes.isSome = true ∧ e'.lists = e.publishes))
  /-- No random number is the number of a reduce task. -/
  suffixes : ∀ e ∈ tr, e.suffix.all (fun sfx => nReduce ≤ sfx) = true

theorem Provisos.left {nReduce : Nat} {tr tr' : List JobEvent} (h : Provisos nReduce (tr ++ tr')) :
    Provisos nReduce tr :=
  ⟨(List.pairwise_append.mp h.listsFirst).1, fun e he => h.suffixes e (List.mem_append_left _ he)⟩

/-- Two tasks do not share a foreign file. -/
theorem Foreign.inj {r r' : Nat} {name : String} (h : Foreign r name) (h' : Foreign r' name) : r = r' :=
  h.globMatch.mp (h'.globMatch.mpr rfl)

/-- Under the provisos there is nothing foreign to a task when an attempt of it lists its input. -/
theorem Provisos.not_foreign {job : Job} {tr : List JobEvent} {s : JobState}
    (h : Reaches (jobSys job) tr s) {w : WorkerId} {r : Nat} {names : List String}
    (hprov : Provisos job.nReduce (tr ++ [.act w (.glob r names)])) (hr : r < job.nReduce) {name : String}
    (hmem : name ∈ s.dir) : ¬ Foreign r name := by
  intro hforeign
  rcases mem_dir_cases h name hmem with ⟨m, r', rfl⟩ | ⟨r', hforeign', w', a, ha, hintro⟩
  · exact hforeign.ne_intermediate m r' rfl
  · obtain rfl := hforeign.inj hforeign'
    -- somebody brought the file in: either a random number was `r`, or the task was published already
    have hsuffix := hprov.suffixes _ (List.mem_append_left _ ha)
    have horder := (List.pairwise_append.mp hprov.listsFirst).2.2 _ ha _ (List.mem_singleton_self _)
    cases a with
    | createTemp sfx =>
        have hsfx : sfx = r := of_decide_eq_true hintro
        have hle : job.nReduce ≤ sfx := of_decide_eq_true hsuffix
        omega
    | runReduce sorted sfx =>
        have hsfx : sfx = r := of_decide_eq_true hintro
        have hle : job.nReduce ≤ sfx := of_decide_eq_true hsuffix
        omega
    | publishOut r' =>
        obtain rfl : r' = r := of_decide_eq_true hintro
        exact horder ⟨rfl, rfl⟩
    | _ => cases hintro

/-! ## Nobody reads a foreign file -/

/-- A worker that has only input files to read. -/
def InputOnly : Pc → Prop
  | .reduceReading _ todo _ => ∀ name ∈ todo, ∀ r, ¬ Foreign r name
  | _ => True

theorem inputOnly_afterAssign (reply : RPCReply) : InputOnly (.afterAssign reply) := by
  unfold Pc.afterAssign
  cases reply.taskType <;> trivial

section Run

variable {job : Job} {tr : List JobEvent} {s : JobState}

/-- A worker's own actions keep it to its input. -/
theorem inputOnly_act (h : Reaches (jobSys job) tr s) {w : WorkerId} {a : Action} {pc' : Pc} {dir' : Dir}
    (hprov : Provisos job.nReduce (tr ++ [.act w a])) (hok : InputOnly (s.pc w))
    (ha : WorkerStep job s.dir (s.pc w) a pc' dir') : InputOnly pc' := by
  have hpc := (jobOk h).pc w
  generalize s.pc w = pc at hok hpc ha
  cases ha with
  | @glob reply =>
      intro name hname r hforeign
      have hlisted := (mem_listing h).mp hname
      rcases hlisted.2 with ⟨m, _, rfl⟩ | hforeign'
      · exact hforeign.ne_intermediate m _ rfl
      · exact hprov.not_foreign h hpc.2 hlisted.1 hforeign'
  | read _ => exact fun name hname => hok name (List.mem_cons_of_mem _ hname)
  | _ => trivial

theorem inputOnly_step (h : Reaches (jobSys job) tr s) {e : JobEvent} {s' : JobState}
    (hprov : Provisos job.nReduce (tr ++ [e])) (hok : ∀ w, InputOnly (s.pc w))
    (hs : JobStep job s e s') : ∀ w, InputOnly (s'.pc w) := by
  refine hs.forall_pc (P := InputOnly) hok trivial trivial (fun now => inputOnly_afterAssign _) ?_
  rintro w a pc' dir' rfl ha _
  exact inputOnly_act h hprov (hok w) ha

/-- Under the provisos every worker has only input files to read, at any time. -/
theorem inputOnly (h : Reaches (jobSys job) tr s) (hprov : Provisos job.nReduce tr) :
    ∀ w, InputOnly (s.pc w) := by
  refine Reaches.invariant (P := fun tr s => Provisos job.nReduce tr → ∀ w, InputOnly (s.pc w)) ?_ ?_ h hprov
  · intro _ w
    trivial
  · intro tr s e s' hrun ih hs hprov
    exact inputOnly_step hrun hprov (ih hprov.left) hs

/-- A foreign file is never read, so none that was read held a record. -/
theorem foreignSilent_of_provisos (h : Reaches (jobSys job) tr s) (hprov : Provisos job.nReduce tr) (r : Nat) :
    ForeignSilent r tr := by
  intro w name content hmem hforeign
  exfalso
  obtain ⟨pre, post, rfl⟩ := List.append_of_mem hmem
  obtain ⟨s₁, s₂, hpre, hstep, _⟩ := Run.split_cons h
  have hinput := inputOnly hpre hprov.left w
  rcases JobStep.view hstep with ⟨_, he, _⟩ | ⟨w', a, pc', dir', he, ha, rfl⟩
  · cases he
  · obtain ⟨rfl, rfl⟩ := JobEvent.act.inj he
    generalize s₁.pc w = pc at hinput ha
    cases ha with
    | read _ => exact hinput name (List.mem_cons_self ..) r hforeign

/-! ## The finished job -/

/-- In a finished job every output file is there. -/
theorem out_mem_of_allDone (h : Reaches (jobSys job) tr s) (hall : s.coord.phase = .allDone) {r : Nat}
    (hr : r < job.nReduce) : outName r ∈ s.dir := by
  have hview := reaches_view h
  rw [← (tasks_length hview).2] at hr
  exact published_of_complete h ((phaseOk hview).allDone hall) hr

/-- The lines of outputs that are right, taken together. -/
theorem lines_of_outputs {mapf : String → String → List KeyValue} (hn : 1 ≤ job.nReduce)
    (hred : OrderInsensitive job.reducef) {out : Nat → List Char}
    (hout : ∀ r < job.nReduce, job.IsOutput mapf r (out r)) {sorted : List KeyValue}
    (hsort : SortsTo (job.mapAll mapf job.files) sorted) :
    ((List.range job.nReduce).flatMap (fun r => lines (out r))).Perm
      (lines (reduceOutput job.reducef sorted)) := by
  refine partitioned_lines hn hred hsort (fun r hr => ?_)
  obtain ⟨part, hpart, hr⟩ := hout r hr
  rw [hr, ← reduceInput_eq]
  exact lines_reduceOutput hred hpart

/-- **End-to-end correctness.** Under the provisos, when the phase is `AllDone` all output files are there,
    `mrsequential` can read its input and writes the same lines, whatever its sort does, and no later
    step changes an output file. -/
theorem job_matches_mrsequential {mapf : String → String → List KeyValue} (hn : 1 ≤ job.nReduce)
    (hdet : job.Deterministic mapf) (hred : OrderInsensitive job.reducef)
    (h : Reaches (jobSys job) tr s) (hprov : Provisos job.nReduce tr)
    (hall : s.coord.phase = .allDone) :
    ∃ out : Nat → List Char, (∀ r < job.nReduce, s.dir.lookup (outName r) = some (out r))
      ∧ (∃ ofile, Mrsequential job mapf ofile)
      ∧ (∀ ofile, Mrsequential job mapf ofile →
          ((List.range job.nReduce).flatMap (fun r => lines (out r))).Perm (lines ofile))
      ∧ ∀ tr' s', Run (jobSys job) s tr' s' → Provisos job.nReduce (tr ++ tr') →
          ∀ r < job.nReduce, s'.dir.lookup (outName r) = some (out r) := by
  have hpast : s.coord.phase ≠ .map := by
    rw [hall]
    decide
  -- the map tasks have read all files, so the sequential program can
  have hseq : mrsequentialMap job mapf = some (job.mapAll mapf job.files) := by
    refine mrsequentialMap_eq (fun file hfile => Option.isSome_iff_exists.mpr ?_)
    obtain ⟨m, hm⟩ := List.mem_iff_getElem?.mp hfile
    exact input_of_pastMap h hpast hn hm
  have hlookup : ∀ r < job.nReduce,
      s.dir.lookup (outName r) = some ((s.dir.lookup (outName r)).getD []) := by
    intro r hr
    obtain ⟨c, hc⟩ := mem_iff_lookup.mp (out_mem_of_allDone h hall hr)
    rw [hc]
    rfl
  have hout : ∀ r < job.nReduce, job.IsOutput mapf r ((s.dir.lookup (outName r)).getD []) :=
    fun r hr => (attemptsOk hdet.unordered h (foreignSilent_of_provisos h hprov r)).out (hlookup r hr)
  refine ⟨fun r => (s.dir.lookup (outName r)).getD [], hlookup, ?_, ?_, ?_⟩
  · -- insertion sort is one of the things the sort may do
    refine ⟨_, _, (job.mapAll mapf job.files).insertionSort (fun a b => a.key ≤ b.key), hseq, ⟨?_, ?_⟩, rfl⟩
    · exact List.pairwise_insertionSort _ _
    · exact List.perm_insertionSort _ _
  · rintro ofile ⟨intermediate, sorted, hmap, hsort, rfl⟩
    obtain rfl := Option.some.inj (hmap.symm.trans hseq)
    exact lines_of_outputs hn hred hout hsort
  · intro tr' s' hrun hprov' r hr
    have hreach := h.append hrun
    have hmem := (later_run h hrun).out (out_mem_of_allDone h hall hr)
    obtain ⟨c', hc'⟩ := mem_iff_lookup.mp hmem
    -- a late attempt may replace the file, by the only text there is
    have hout' := (attemptsOk hdet.unordered hreach (foreignSilent_of_provisos hreach hprov' r)).out hc'
    rw [hc', isOutput_unique hred hout' (hout r hr)]

end Run

/-- Worker 0 is too slow with the only reduce task, and worker 1 does it too; both have listed their input
    before either publishes. Worker 0 publishes when the job is already done. -/
def lateReduceTrace : List JobEvent :=
  [.assign 0 0 ⟨.map, "in", 1, 0, 0⟩, .act 0 (.runMap [⟨"null", "x"⟩]), .act 0 (.createTemp 7),
    .act 0 (.publish 0), .report 0 ⟨.map, 0, 0⟩ true, .assign 0 0 ⟨.reduce, "", 1, 0, 0⟩,
    .act 0 (.glob 0 ["mr-0-0"]), .tick 11000000000 true,
    .assign 1 12000000000 ⟨.reduce, "", 1, 0, 1⟩, .act 1 (.glob 0 ["mr-0-0"]),
    .act 1 (.read "mr-0-0" (encodeRecord ⟨"null", "x"⟩)), .act 1 (.runReduce [⟨"null", "x"⟩] 9),
    .act 1 (.publishOut 0), .report 1 ⟨.reduce, 0, 1⟩ true,
    .act 0 (.read "mr-0-0" (encodeRecord ⟨"null", "x"⟩)), .act 0 (.runReduce [⟨"null", "x"⟩] 8),
    .act 0 (.publishOut 0)]

/-- The slow worker's output replaces the other one's, and is the sequential program's. -/
theorem job_matches_mrsequential_lateReduce :
    ∃ s, Reaches (jobSys (demoJob "null")) lateReduceTrace s ∧ s.coord.phase = .allDone
      ∧ Provisos 1 lateReduceTrace
      ∧ ∃ out : Nat → List Char, (∀ r < 1, s.dir.lookup (outName r) = some (out r))
        ∧ ∀ ofile, Mrsequential (demoJob "null") (demoMapf "null") ofile →
          ((List.range 1).flatMap (fun r => lines (out r))).Perm (lines ofile) := by
  have hrun : ∃ s, Reaches (jobSys (demoJob "null")) lateReduceTrace s
      ∧ decide (s.coord.phase = .allDone) = true :=
    exists_reaches_with (jobSys_computedBy _) _ (by decide +kernel)
  have hprov : Provisos 1 lateReduceTrace := ⟨by decide, by decide⟩
  obtain ⟨s, h, hs⟩ := hrun
  have hall : s.coord.phase = .allDone := of_decide_eq_true hs
  obtain ⟨out, hout, _, hlines, _⟩ := job_matches_mrsequential (by decide) (demoJob_deterministic "null")
    (demoJob_orderInsensitive "null") h hprov hall
  exact ⟨s, h, hall, hprov, out, hout, hlines⟩

end MapReduce
end DistributedLabs
