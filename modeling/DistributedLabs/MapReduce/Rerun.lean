import DistributedLabs.MapReduce.Intermediate

/-!
# `MapReduce.Rerun` — what a reduce attempt reads, and what another attempt writes

A reduce attempt reads whatever the wildcard `mr-*-r` finds. Besides its input that is everything `Foreign r`:
the output of an earlier attempt, and temporary files whose random number happens to be `r`. So the attempt
reads exactly its input when, and only when, nothing foreign is in the directory (`listing_exact_iff`), and an
attempt that runs after `mr-out-r` was published always reads that file too.

What that does to the output depends on what the decoder makes of a foreign file. As long as the foreign files
read for task `r` hold no record (`ForeignSilent`), every attempt collects the records of its input
(`ReadingOk`), so every attempt writes a text of that input (`attemptsOk`). That is so even where the map
function goes through a Go map and two attempts of one map task write their records in different orders
(`Job.Unordered`): the order does not survive the sort. If a foreign file does hold a record, a second
attempt may write something else; the last run of this module is one that does.
-/

namespace DistributedLabs
namespace MapReduce

open Lib

/-! ## What is in the directory -/

/-- A file that the wildcard of reduce task `r` finds besides the task's input. -/
def Foreign (r : Nat) (name : String) : Prop :=
  name = outName r ∨ ∃ i, name = mapTempName i r ∨ name = reduceTempName i r

/-- An action that may bring a file into the directory that is foreign to task `r`. -/
def Action.introduces (r : Nat) : Action → Bool
  | .createTemp sfx => sfx = r
  | .runReduce _ sfx => sfx = r
  | .publishOut r' => r' = r
  | _ => false

theorem Foreign.ne_intermediate {r : Nat} {name : String} (h : Foreign r name) (m r' : Nat) :
    name ≠ intermediateName m r' := by
  rcases h with rfl | ⟨i, rfl | rfl⟩
  · exact (intermediateName_ne_outName m r' r).symm
  · exact (intermediateName_ne_mapTempName m r' i r).symm
  · exact (intermediateName_ne_reduceTempName m r' i r).symm

theorem mem_publish {dir : Dir} {temp name name' : String} {content : List Char}
    (h : name' ∈ dir.publish temp name content) : name' = name ∨ name' ∈ dir := by
  unfold Dir.publish at h
  rcases (AList.mem_insert _).mp h with rfl | hmem
  · exact Or.inl rfl
  · exact Or.inr (AList.mem_erase.mp hmem).2

/-- A file that is new in the directory is intermediate or foreign to some task. -/
theorem WorkerStep.mem_dir {job : Job} {dir dir' : Dir} {pc pc' : Pc} {a : Action}
    (h : WorkerStep job dir pc a pc' dir') {name : String} (hmem : name ∈ dir') :
    name ∈ dir ∨ (∃ m r, name = intermediateName m r) ∨ ∃ r, Foreign r name ∧ a.introduces r = true := by
  cases h with
  | runMap _ _ _ => exact Or.inl hmem
  | createTemp _ _ =>
      rcases (AList.mem_insert _).mp hmem with rfl | hold
      · exact Or.inr (Or.inr ⟨_, Or.inr ⟨_, Or.inl rfl⟩, decide_eq_true rfl⟩)
      · exact Or.inl hold
  | spill _ _ _ htemp _ =>
      rcases (AList.mem_insert _).mp hmem with rfl | hold
      · exact Or.inl (mem_iff_lookup.mpr ⟨_, htemp⟩)
      · exact Or.inl hold
  | publish _ _ _ =>
      rcases mem_publish hmem with rfl | hold
      · exact Or.inr (Or.inl ⟨_, _, rfl⟩)
      · exact Or.inl hold
  | glob => exact Or.inl hmem
  | read _ => exact Or.inl hmem
  | runReduce _ _ =>
      rcases (AList.mem_insert _).mp hmem with rfl | hold
      · exact Or.inr (Or.inr ⟨_, Or.inr ⟨_, Or.inr rfl⟩, decide_eq_true rfl⟩)
      · exact Or.inl hold
  | spillOut htemp _ =>
      rcases (AList.mem_insert _).mp hmem with rfl | hold
      · exact Or.inl (mem_iff_lookup.mpr ⟨_, htemp⟩)
      · exact Or.inl hold
  | publishOut _ =>
      rcases mem_publish hmem with rfl | hold
      · exact Or.inr (Or.inr ⟨_, Or.inl rfl, decide_eq_true rfl⟩)
      · exact Or.inl hold

/-- Every file of a run is intermediate, or foreign to a task and introduced in the run. -/
theorem mem_dir_cases {job : Job} {tr : List JobEvent} {s : JobState} (h : Reaches (jobSys job) tr s) :
    ∀ name ∈ s.dir, (∃ m r, name = intermediateName m r)
      ∨ ∃ r, Foreign r name ∧ ∃ w a, .act w a ∈ tr ∧ a.introduces r = true := by
  refine Reaches.invariant (P := fun tr s => ∀ name ∈ s.dir, (∃ m r, name = intermediateName m r)
    ∨ ∃ r, Foreign r name ∧ ∃ w a, .act w a ∈ tr ∧ a.introduces r = true) ?_ ?_ h
  · intro name hmem
    exact absurd hmem (AList.notMem_empty name)
  · intro tr s e s' _ ih hs name hmem
    have hkeep : name ∈ s.dir → (∃ m r, name = intermediateName m r)
        ∨ ∃ r, Foreign r name ∧ ∃ w a, .act w a ∈ tr ++ [e] ∧ a.introduces r = true := by
      intro hold
      rcases ih name hold with hint | ⟨r, hforeign, w, a, ha, hintro⟩
      · exact Or.inl hint
      · exact Or.inr ⟨r, hforeign, w, a, List.mem_append_left _ ha, hintro⟩
    rcases JobStep.view hs with ⟨_, _, _, hdir⟩ | ⟨w, a, pc', dir', rfl, ha, rfl⟩
    · exact hkeep (hdir ▸ hmem)
    · rcases ha.mem_dir hmem with hold | hint | ⟨r, hforeign, hintro⟩
      · exact hkeep hold
      · exact Or.inl hint
      · exact Or.inr ⟨r, hforeign, w, a, by simp, hintro⟩

/-! ## What the wildcard finds -/

theorem slash_notMem_toString (n : Nat) : '/' ∉ (toString n).toList := by
  intro h
  have hdigit := toString_digits n '/' h
  revert hdigit
  decide

theorem globMatch_intermediate (m r r' : Nat) :
    globMatch (inputPattern r).toList (intermediateName m r').toList = true ↔ r' = r :=
  globMatch_fileName (slash_notMem_toString m) r' r

theorem Foreign.globMatch {r r' : Nat} {name : String} (h : Foreign r' name) :
    globMatch (inputPattern r).toList name.toList = true ↔ r' = r := by
  rcases h with rfl | ⟨i, rfl | rfl⟩
  · exact globMatch_fileName (by decide) r' r
  · refine globMatch_fileName ?_ r' r
    simpa [String.toList_append] using slash_notMem_toString i
  · refine globMatch_fileName ?_ r' r
    simpa [String.toList_append] using slash_notMem_toString i

section Listing

variable {job : Job} {tr : List JobEvent} {s : JobState} (h : Reaches (jobSys job) tr s)
include h

theorem intermediate_lt {m r : Nat} (hmem : intermediateName m r ∈ s.dir) : m < job.files.length := by
  obtain ⟨c, hc⟩ := mem_iff_lookup.mp hmem
  obtain ⟨_, _, ⟨_, _, hm, _⟩, _⟩ := (jobOk h).intermediate hc
  exact (List.getElem?_eq_some_iff.mp hm).1

/-- A reduce task lists its input, as far as it is there, and what is foreign. -/
theorem mem_listing {r : Nat} {name : String} :
    name ∈ s.dir.glob (inputPattern r)
      ↔ name ∈ s.dir ∧ ((∃ m < job.files.length, name = intermediateName m r) ∨ Foreign r name) := by
  rw [mem_glob]
  refine and_congr_right (fun hmem => ?_)
  constructor
  · intro hmatch
    rcases mem_dir_cases h name hmem with ⟨m, r', rfl⟩ | ⟨r', hforeign, _⟩
    · obtain rfl := (globMatch_intermediate m r r').mp hmatch
      exact Or.inl ⟨m, intermediate_lt h hmem, rfl⟩
    · obtain rfl := hforeign.globMatch.mp hmatch
      exact Or.inr hforeign
  · rintro (⟨m, _, rfl⟩ | hforeign)
    · exact (globMatch_intermediate m r r).mpr rfl
    · exact hforeign.globMatch.mpr rfl

/-- After the map phase a listing is exactly the task's input if and only if nothing foreign is around. -/
theorem listing_exact_iff (hpast : s.coord.phase ≠ .map) {r : Nat} (hr : r < job.nReduce) :
    (∀ name, name ∈ s.dir.glob (inputPattern r) ↔ ∃ m < job.files.length, name = intermediateName m r)
      ↔ ∀ name ∈ s.dir, ¬ Foreign r name := by
  constructor
  · intro hexact name hmem hforeign
    have hlisted := (mem_listing h).mpr ⟨hmem, Or.inr hforeign⟩
    obtain ⟨m, _, hname⟩ := (hexact name).mp hlisted
    exact hforeign.ne_intermediate m r hname
  · intro hclean name
    rw [mem_listing h]
    constructor
    · rintro ⟨hmem, hown | hforeign⟩
      · exact hown
      · exact absurd hforeign (hclean name hmem)
    · rintro ⟨m, hm, rfl⟩
      exact ⟨mem_of_pastMap h hpast hm hr, Or.inl ⟨m, hm, rfl⟩⟩

end Listing

/-! ## The records of a task -/

/-- The map function may return its records in any order. -/
def Job.Unordered (job : Job) (mapf : String → String → List KeyValue) : Prop :=
  ∀ file content kva, job.emits file content kva = true → kva.Perm (mapf file content)

theorem Job.Deterministic.unordered {job : Job} {mapf : String → String → List KeyValue}
    (hdet : job.Deterministic mapf) : job.Unordered mapf := by
  intro file content kva hem
  rw [(hdet file content kva).mp hem]

/-- What a map task emits, when its file can be read. -/
def Job.mapResult (job : Job) (mapf : String → String → List KeyValue) (m : Nat) : List KeyValue :=
  match job.files[m]? with
  | none => []
  | some file =>
      match job.input file with
      | none => []
      | some content => mapf file content

/-- What a map task emits for reduce task `r`. -/
def Job.part (job : Job) (mapf : String → String → List KeyValue) (r m : Nat) : List KeyValue :=
  inBucket job.nReduce r (job.mapResult mapf m)

/-- All that is emitted for reduce task `r`. -/
def Job.reduceInput (job : Job) (mapf : String → String → List KeyValue) (r : Nat) : List KeyValue :=
  (List.range job.files.length).flatMap (job.part mapf r)

/-- A text that reduce task `r` is to write. -/
def Job.IsOutput (job : Job) (mapf : String → String → List KeyValue) (r : Nat) (out : List Char) : Prop :=
  ∃ sorted, SortsTo (job.reduceInput mapf r) sorted ∧ out = reduceOutput job.reducef sorted

/-- There is only one such text. -/
theorem isOutput_unique {job : Job} {mapf : String → String → List KeyValue}
    (hred : OrderInsensitive job.reducef) {r : Nat} {out out' : List Char} (h : job.IsOutput mapf r out)
    (h' : job.IsOutput mapf r out') : out = out' := by
  obtain ⟨sorted, hsort, rfl⟩ := h
  obtain ⟨sorted', hsort', rfl⟩ := h'
  exact reduceOutput_unique hred hsort hsort'

/-- The map task whose bucket for `r` a file holds. -/
def Job.ownIndex (job : Job) (r : Nat) (name : String) : Option Nat :=
  (List.range job.files.length).find? (fun m => name = intermediateName m r)

/-- Only the task's own input has an index. -/
theorem ownIndex_eq_some {job : Job} {r m : Nat} {name : String} :
    job.ownIndex r name = some m ↔ m < job.files.length ∧ name = intermediateName m r := by
  unfold Job.ownIndex
  constructor
  · intro hfind
    have hname := List.find?_some hfind
    exact ⟨List.mem_range.mp (List.mem_of_find?_eq_some hfind), of_decide_eq_true hname⟩
  · rintro ⟨hm, rfl⟩
    cases hfind : (List.range job.files.length).find?
        (fun m' => decide (intermediateName m r = intermediateName m' r)) with
    | none =>
        have hnone := List.find?_eq_none.mp hfind m (List.mem_range.mpr hm)
        simp at hnone
    | some m' =>
        have hname := List.find?_some hfind
        rw [(intermediateName_inj.mp (of_decide_eq_true hname)).1]

/-! ## What an attempt has read -/

/-- A reduce attempt that still has `todo` to read: `ms` are the map tasks whose files it has read, and it has their
    records in some order. -/
def ReadingOk (job : Job) (mapf : String → String → List KeyValue) (r : Nat) (todo : List String)
    (kva : List KeyValue) : Prop :=
  ∃ ms, (ms ++ todo.filterMap (job.ownIndex r)).Perm (List.range job.files.length)
    ∧ kva.Perm (ms.flatMap (job.part mapf r))
    ∧ ∀ name ∈ todo, job.ownIndex r name = none → Foreign r name

/-- What a worker at reduce task `r` has computed. -/
def AttemptOk (job : Job) (mapf : String → String → List KeyValue) (r : Nat) : Pc → Prop
  | .reduceReading reply todo kva => reply.taskId = r → ReadingOk job mapf r todo kva
  | .reduceWriting reply out _ => reply.taskId = r → job.IsOutput mapf r out
  | _ => True

/-- No file foreign to task `r` that was read in the run held a record. -/
def ForeignSilent (r : Nat) (tr : List JobEvent) : Prop :=
  ∀ w name content, .act w (.read name content) ∈ tr → Foreign r name → decodeStream content = []

/-- What attempts at task `r` have computed and published is right. -/
structure AttemptsOk (job : Job) (mapf : String → String → List KeyValue) (r : Nat) (s : JobState) :
    Prop where
  pc : ∀ w, AttemptOk job mapf r (s.pc w)
  out : ∀ {c : List Char}, s.dir.lookup (outName r) = some c → job.IsOutput mapf r c

section Attempts

variable {job : Job} {mapf : String → String → List KeyValue} {tr : List JobEvent} {s : JobState}

/-- An intermediate file has the records of its map task for its reduce task, in some order. -/
theorem decode_intermediate (hun : job.Unordered mapf) (h : Reaches (jobSys job) tr s) {m r : Nat}
    {c : List Char} (hc : s.dir.lookup (intermediateName m r) = some c) :
    (decodeStream c).Perm (job.part mapf r m) := by
  obtain ⟨_, kva, ⟨file, content, hm, hin, hem⟩, rfl⟩ := (jobOk h).intermediate hc
  have hresult : job.mapResult mapf m = mapf file content := by
    unfold Job.mapResult
    simp only [hm, hin]
  rw [decodeStream_encodeRecords, Job.part, hresult]
  exact (hun file content kva hem).filter _

/-- A fresh listing has the files of all map tasks, once each. -/
theorem readingOk_glob (h : Reaches (jobSys job) tr s) (hpast : s.coord.phase ≠ .map) {r : Nat}
    (hr : r < job.nReduce) : ReadingOk job mapf r (s.dir.glob (inputPattern r)) [] := by
  refine ⟨[], ?_, List.Perm.refl _, ?_⟩
  · rw [List.nil_append]
    have hnodup : ((s.dir.glob (inputPattern r)).filterMap (job.ownIndex r)).Nodup := by
      refine (glob_nodup _ _).filterMap (fun name name' m hm hm' => ?_)
      rw [(ownIndex_eq_some.mp hm).2, (ownIndex_eq_some.mp hm').2]
    refine (List.perm_ext_iff_of_nodup hnodup List.nodup_range).mpr (fun m => ?_)
    rw [List.mem_filterMap, List.mem_range]
    constructor
    · rintro ⟨name, _, hown⟩
      exact (ownIndex_eq_some.mp hown).1
    · intro hm
      refine ⟨intermediateName m r, ?_, ownIndex_eq_some.mpr ⟨hm, rfl⟩⟩
      exact (mem_listing h).mpr ⟨mem_of_pastMap h hpast hm hr, Or.inl ⟨m, hm, rfl⟩⟩
  · intro name hname hnone
    rcases ((mem_listing h).mp hname).2 with ⟨m, hm, hown⟩ | hforeign
    · rw [ownIndex_eq_some.mpr ⟨hm, hown⟩] at hnone
      cases hnone
    · exact hforeign

/-- Reading one more file: an input file adds its records, a foreign one adds nothing. -/
theorem readingOk_read (hun : job.Unordered mapf) (h : Reaches (jobSys job) tr s) {r : Nat}
    {name : String} {todo : List String} {kva : List KeyValue} {content : List Char}
    (hread : ReadingOk job mapf r (name :: todo) kva) (hc : s.dir.lookup name = some content)
    (hsilent : Foreign r name → decodeStream content = []) :
    ReadingOk job mapf r todo (kva ++ decodeStream content) := by
  obtain ⟨ms, hperm, hkva, hforeign⟩ := hread
  have hrest : ∀ name' ∈ todo, job.ownIndex r name' = none → Foreign r name' :=
    fun name' hmem => hforeign name' (List.mem_cons_of_mem _ hmem)
  cases hown : job.ownIndex r name with
  | none =>
      refine ⟨ms, ?_, ?_, hrest⟩
      · rwa [List.filterMap_cons_none hown] at hperm
      · rwa [hsilent (hforeign name (List.mem_cons_self ..) hown), List.append_nil]
  | some m =>
      obtain ⟨_, rfl⟩ := ownIndex_eq_some.mp hown
      refine ⟨ms ++ [m], ?_, ?_, hrest⟩
      · rw [List.filterMap_cons_some hown] at hperm
        rwa [List.append_assoc, List.singleton_append]
      · rw [List.flatMap_append, List.flatMap_singleton]
        exact hkva.append (decode_intermediate hun h hc)

/-- With everything read, what is sorted is the task's input. -/
theorem ReadingOk.isOutput {r : Nat} {kva sorted : List KeyValue} (hread : ReadingOk job mapf r [] kva)
    (hsort : SortsTo kva sorted) : job.IsOutput mapf r (reduceOutput job.reducef sorted) := by
  obtain ⟨ms, hperm, hkva, _⟩ := hread
  rw [List.filterMap_nil, List.append_nil] at hperm
  exact ⟨sorted, ⟨hsort.1, (hsort.2.trans hkva).trans (hperm.flatMap_right _)⟩, rfl⟩

theorem attemptOk_afterAssign (r : Nat) (reply : RPCReply) :
    AttemptOk job mapf r (.afterAssign reply) := by
  unfold Pc.afterAssign
  cases reply.taskType <;> trivial

/-- A worker's own actions keep its attempt right, as long as a foreign file that is read holds no record. -/
theorem attemptOk_act (hun : job.Unordered mapf) (h : Reaches (jobSys job) tr s) {r : Nat}
    {w : WorkerId} {a : Action} {pc' : Pc} {dir' : Dir}
    (hok : AttemptOk job mapf r (s.pc w)) (ha : WorkerStep job s.dir (s.pc w) a pc' dir')
    (hsilent : ∀ name content, a = .read name content → Foreign r name → decodeStream content = []) :
    AttemptOk job mapf r pc' := by
  have hpc := (jobOk h).pc w
  generalize s.pc w = pc at hok hpc ha
  cases ha with
  | glob =>
      rintro rfl
      exact readingOk_glob h hpc.1 hpc.2
  | read hc =>
      intro hr
      exact readingOk_read hun h (hok hr) hc (hsilent _ _ rfl)
  | runReduce hsort _ =>
      intro hr
      exact (hok hr).isOutput hsort
  | spillOut _ _ => exact hok
  | _ => trivial

theorem attemptsOk_step (hun : job.Unordered mapf) (h : Reaches (jobSys job) tr s) {r : Nat}
    {e : JobEvent} {s' : JobState} (hsilent : ForeignSilent r (tr ++ [e]))
    (hok : AttemptsOk job mapf r s) (hs : JobStep job s e s') : AttemptsOk job mapf r s' := by
  constructor
  · refine hs.forall_pc (P := AttemptOk job mapf r) hok.pc trivial trivial
      (fun now => attemptOk_afterAssign r _) ?_
    rintro w a pc' dir' rfl ha _
    refine attemptOk_act hun h (hok.pc w) ha (fun name content ha' => ?_)
    subst ha'
    exact hsilent w name content (by simp)
  · intro c hc
    rcases hs.view with ⟨_, _, _, hdir⟩ | ⟨w, a, pc', dir', _, ha, rfl⟩
    · rw [hdir] at hc
      exact hok.out hc
    · rcases ha.lookup_out r with hsame | ⟨reply, out, sfx, hpc, _, hr, hnew⟩
      · exact hok.out (hsame ▸ hc)
      · have hw := hok.pc w
        rw [hpc] at hw
        rw [← Option.some.inj (hnew.symm.trans hc)]
        exact hw hr

/-- As long as foreign files hold no record, every attempt works on the records of the task's input. -/
theorem attemptsOk (hun : job.Unordered mapf) (h : Reaches (jobSys job) tr s) {r : Nat}
    (hsilent : ForeignSilent r tr) : AttemptsOk job mapf r s := by
  refine Reaches.invariant (P := fun tr s => ForeignSilent r tr → AttemptsOk job mapf r s) ?_ ?_ h hsilent
  · intro _
    exact ⟨fun _ => trivial, fun hc => by simp [jobSys] at hc⟩
  · intro tr s e s' hrun ih hs hsilent
    have hbefore : ForeignSilent r tr :=
      fun w name content hmem => hsilent w name content (List.mem_append_left _ hmem)
    exact attemptsOk_step hun hrun hsilent (ih hbefore) hs

end Attempts

/-! ## Running a reduce task again -/

theorem publishOut_mem {job : Job} {s s' : JobState} {w : WorkerId} {r : Nat}
    (hs : JobStep job s (.act w (.publishOut r)) s') : outName r ∈ s'.dir := by
  rcases hs.view with ⟨_, he, _⟩ | ⟨w', a, pc', dir', he, ha, rfl⟩
  · cases he
  · obtain ⟨rfl, rfl⟩ := JobEvent.act.inj he
    generalize s.pc w = pc at ha
    cases ha with
    | publishOut _ => exact mem_iff_lookup.mpr ⟨_, lookup_publish_self ..⟩

/-- **When running a reduce task again is harmless.** After the map phase an attempt reads exactly the files
    `mr-m-r` if and only if neither `mr-out-r` nor a temporary file with the number `r` is there when it lists
    its input. And as long as the foreign files that attempts of the task have read held no record,
    publishing `mr-out-r` again replaces it by the same text. -/
theorem rerun_harmless {job : Job} {mapf : String → String → List KeyValue}
    (hdet : job.Deterministic mapf) (hred : OrderInsensitive job.reducef) {tr : List JobEvent}
    {s : JobState} (h : Reaches (jobSys job) tr s) {r : Nat} (hr : r < job.nReduce) :
    (s.coord.phase ≠ .map →
      ((∀ name, name ∈ s.dir.glob (inputPattern r)
          ↔ ∃ m < job.files.length, name = intermediateName m r)
        ↔ ∀ name ∈ s.dir, ¬ Foreign r name))
    ∧ (ForeignSilent r tr → ∀ {w : WorkerId} {s' : JobState} {c : List Char},
        JobStep job s (.act w (.publishOut r)) s' → s.dir.lookup (outName r) = some c →
        s'.dir.lookup (outName r) = some c) := by
  refine ⟨fun hpast => listing_exact_iff h hpast hr, ?_⟩
  intro hsilent w s' c hs hc
  have hsilent' : ForeignSilent r (tr ++ [.act w (.publishOut r)]) := by
    intro v name content hmem
    rcases List.mem_append.mp hmem with hold | hnew
    · exact hsilent v name content hold
    · simp at hnew
  have hbefore := (attemptsOk hdet.unordered h hsilent).out hc
  obtain ⟨c', hc'⟩ := mem_iff_lookup.mp (publishOut_mem hs)
  have hafter := (attemptsOk hdet.unordered (h.snoc hs) hsilent').out hc'
  rw [hc', isOutput_unique hred hafter hbefore]

theorem demoJob_orderInsensitive (key : String) : OrderInsensitive (demoJob key).reducef := by
  intro _ vs vs' hperm
  show toString vs.length = toString vs'.length
  rw [hperm.length_eq]

/-- Up to the first publication of `mr-out-0`. -/
def firstAttempt (key : String) : List JobEvent :=
  [.assign 0 0 ⟨.map, "in", 1, 0, 0⟩, .act 0 (.runMap [⟨key, "x"⟩]), .act 0 (.createTemp 7),
    .act 0 (.publish 0), .report 0 ⟨.map, 0, 0⟩ true, .assign 0 0 ⟨.reduce, "", 1, 0, 0⟩,
    .act 0 (.glob 0 ["mr-0-0"]), .act 0 (.read "mr-0-0" (encodeRecord ⟨key, "x"⟩)),
    .act 0 (.runReduce [⟨key, "x"⟩] 8), .act 0 (.publishOut 0)]

/-- The report of the first attempt is lost; a second attempt reads the output of the first and takes the
    given records from it. -/
def secondAttempt (key : String) (foreign : List KeyValue) : List JobEvent :=
  [.crash 0, .tick 11000000000 true, .assign 1 12000000000 ⟨.reduce, "", 1, 0, 1⟩,
    .act 1 (.glob 0 ["mr-0-0", "mr-out-0"]), .act 1 (.read "mr-0-0" (encodeRecord ⟨key, "x"⟩)),
    .act 1 (.read "mr-out-0" (outputLine key "1")),
    .act 1 (.runReduce (foreign ++ [⟨key, "x"⟩]) 9)]

/-- Under this key the decoder makes nothing of the output file that the second attempt reads. -/
theorem foreignSilent_word : ForeignSilent 0 (firstAttempt "word" ++ secondAttempt "word" []) := by
  intro w name content hmem hforeign
  have hcases : name = intermediateName 0 0 ∨ content = outputLine "word" "1" := by
    simp only [firstAttempt, secondAttempt, List.cons_append, List.nil_append, List.mem_cons,
      JobEvent.act.injEq, Action.read.injEq, reduceCtorEq, and_false, false_or, List.not_mem_nil,
      or_false] at hmem
    rcases hmem with ⟨_, rfl, _⟩ | ⟨_, rfl, _⟩ | ⟨_, _, rfl⟩
    · exact Or.inl (by decide)
    · exact Or.inl (by decide)
    · exact Or.inr rfl
  rcases hcases with rfl | rfl
  · exact absurd rfl (hforeign.ne_intermediate 0 0)
  · decide +kernel

/-- The second attempt replaces the output by itself. -/
theorem rerun_harmless_word :
    ∃ s s' c, Reaches (jobSys (demoJob "word")) (firstAttempt "word" ++ secondAttempt "word" []) s
      ∧ JobStep (demoJob "word") s (.act 1 (.publishOut 0)) s'
      ∧ s.dir.lookup (outName 0) = some c ∧ s'.dir.lookup (outName 0) = some c := by
  have hrun : ∃ s, Reaches (jobSys (demoJob "word")) (firstAttempt "word" ++ secondAttempt "word" []) s
      ∧ (decide (s.dir.lookup (outName 0) = some (outputLine "word" "1"))
        && (jobNext (demoJob "word") s (.act 1 (.publishOut 0))).isSome) = true :=
    exists_reaches_with (jobSys_computedBy _) _ (by decide +kernel)
  obtain ⟨s, h, hs⟩ := hrun
  rw [Bool.and_eq_true] at hs
  obtain ⟨s', hnext⟩ := Option.isSome_iff_exists.mp hs.2
  have hstep := (jobSys_computedBy (demoJob "word") _ _ _).mpr hnext
  have hfirst := of_decide_eq_true hs.1
  have hharmless := rerun_harmless (demoJob_deterministic "word") (demoJob_orderInsensitive "word") h
    (r := 0) (by decide)
  exact ⟨s, s', _, h, hstep, hfirst, hharmless.2 foreignSilent_word hstep hfirst⟩

/-- A task that is run again may well read other files than its input, and replace the right output by
    another one: what the first attempt wrote for the key `null` decodes to an empty record. -/
theorem second_attempt_writes_other_output :
    (demoJob "null").Deterministic (demoMapf "null") ∧ OrderInsensitive (demoJob "null").reducef
    ∧ ∃ s s', Reaches (jobSys (demoJob "null")) (firstAttempt "null" ++ secondAttempt "null" [⟨"", ""⟩]) s
      ∧ JobStep (demoJob "null") s (.act 1 (.publishOut 0)) s'
      ∧ s.dir.lookup (outName 0) = some "null 1\n".toList
      ∧ s'.dir.lookup (outName 0) = some " 1\nnull 1\n".toList := by
  refine ⟨demoJob_deterministic "null", demoJob_orderInsensitive "null", ?_⟩
  have hrun : ∃ s, Reaches (jobSys (demoJob "null"))
        (firstAttempt "null" ++ secondAttempt "null" [⟨"", ""⟩]) s
      ∧ (decide (s.dir.lookup (outName 0) = some "null 1\n".toList)
        && (jobNext (demoJob "null") s (.act 1 (.publishOut 0))).any
          (fun s' => s'.dir.lookup (outName 0) = some " 1\nnull 1\n".toList)) = true :=
    exists_reaches_with (jobSys_computedBy _) _ (by decide +kernel)
  obtain ⟨s, h, hs⟩ := hrun
  rw [Bool.and_eq_true, Option.any_eq_true] at hs
  obtain ⟨hfirst, s', hnext, hsecond⟩ := hs
  exact ⟨s, s', h, (jobSys_computedBy _ _ _ _).mpr hnext, of_decide_eq_true hfirst,
    of_decide_eq_true hsecond⟩

end MapReduce
end DistributedLabs
