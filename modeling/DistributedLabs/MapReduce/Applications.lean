import DistributedLabs.MapReduce.EndToEnd

/-!
# `MapReduce.Applications` — what the word count and the indexer write

The map function of the indexer goes through a Go map, so two attempts of one map task may write their records in
different orders, and a later attempt may replace the files of an earlier one. A reduce task then gathers records of
several orders, but always the same ones (`ReadingOk`), so for a reduce function that does not look at the order of its
values the text of each output file is determined: the keys of its bucket in increasing order, a line for each
(`output_text`). With the two applications' own functions that says what ends up in `mr-out-r`: every word with the
number of its occurrences (`wc_outputs`), and every word with the sorted list of the files it occurs in
(`indexer_outputs`).
-/

namespace DistributedLabs
namespace MapReduce

open Lib

/-! ## The text of an output file -/

/-- The text of `mr-out-r`: a line for each key of the bucket, in increasing order. -/
def Job.outputText (job : Job) (mapf : String → String → List KeyValue) (r : Nat) : List Char :=
  let all := job.mapAll mapf job.files
  (sortedSet ((all.map KeyValue.key).filter (fun key => bucket job.nReduce key = r))).flatMap
    (chunkOf job.reducef all)

section Text

variable {job : Job} {mapf : String → String → List KeyValue}

/-- The text of a sorted slice, key by key. -/
theorem reduceOutput_sortedSet {reducef : String → List String → String} (hred : OrderInsensitive reducef)
    {kva sorted : List KeyValue} (hsort : SortsTo kva sorted) :
    reduceOutput reducef sorted = (sortedSet (kva.map KeyValue.key)).flatMap (chunkOf reducef kva) := by
  have hline : ∀ key {vs vs' : List String}, vs.Perm vs' →
      outputLine key (reducef key vs) = outputLine key (reducef key vs') := by
    intro key vs vs' hvs
    rw [hred key hvs]
  rw [reduceOutput_eq, List.flatMap_def, groups_map_sortedSet hline hsort.1 hsort.2, ← List.flatMap_def]
  rfl

/-- What is written for a key of a bucket is what is written for it among all records. -/
theorem isOutput_eq (hred : OrderInsensitive job.reducef) {r : Nat} {out : List Char}
    (h : job.IsOutput mapf r out) : out = job.outputText mapf r := by
  obtain ⟨sorted, hsort, rfl⟩ := h
  rw [reduceOutput_sortedSet hred hsort, reduceInput_eq]
  have hkeys : (inBucket job.nReduce r (job.mapAll mapf job.files)).map KeyValue.key
      = ((job.mapAll mapf job.files).map KeyValue.key).filter (fun key => bucket job.nReduce key = r) := by
    rw [List.filter_map]
    rfl
  rw [hkeys]
  refine List.flatMap_congr (fun key hkey => ?_)
  have hr : bucket job.nReduce key = r := by simpa using (List.mem_filter.mp (mem_sortedSet.mp hkey)).2
  show outputLine key (job.reducef key (valuesOf _ _ key (partOf KeyValue.key (bucket job.nReduce) r _))) = _
  rw [valuesOf_partOf KeyValue.key KeyValue.value hr]
  rfl

/-- Under the provisos an output file never has another text than its own, and in a finished job all are there. -/
theorem output_text (hun : job.Unordered mapf) (hred : OrderInsensitive job.reducef) {tr : List JobEvent}
    {s : JobState} (h : Reaches (jobSys job) tr s) (hprov : Provisos job.nReduce tr) :
    (∀ r c, s.dir.lookup (outName r) = some c → c = job.outputText mapf r)
    ∧ (s.coord.phase = .allDone → ∀ r < job.nReduce, s.dir.lookup (outName r) = some (job.outputText mapf r)) := by
  have htext : ∀ r c, s.dir.lookup (outName r) = some c → c = job.outputText mapf r := by
    intro r c hc
    exact isOutput_eq hred ((attemptsOk hun h (foreignSilent_of_provisos h hprov r)).out hc)
  refine ⟨htext, fun hall r hr => ?_⟩
  obtain ⟨c, hc⟩ := mem_iff_lookup.mp (out_mem_of_allDone h hall hr)
  rw [hc, htext r c hc]

end Text

/-! ## Words -/

/-- `strings.FieldsFunc`: the maximal runs of characters that are no separators. -/
def fieldsFunc (sep : Char → Bool) (s : String) : List String :=
  ((s.toList.splitOnP sep).filter (fun run => !run.isEmpty)).map String.ofList

-- `unicode.IsLetter`, for both applications
variable (isLetter : Char → Bool)

/-- The words of a file's contents. -/
def words (contents : String) : List String := fieldsFunc (fun r => !isLetter r) contents

/-- The words of all files, a file that is listed twice counted twice. -/
def allWords (input : String → Option String) (files : List String) : List String :=
  files.flatMap (fun file => ((input file).map (words isLetter)).getD [])

/-! ## The word count -/

namespace Wc

/-- `Map`. -/
def map (_filename contents : String) : List KeyValue := (words isLetter contents).map (fun w => ⟨w, "1"⟩)

/-- `Reduce`. -/
def reduce (_key : String) (values : List String) : String := toString values.length

/-- A job that runs the application. -/
def job (files : List String) (nReduce : Nat) (input : String → Option String) : Job where
  files := files
  nReduce := nReduce
  input := input
  emits file content kva := kva = map isLetter file content
  reducef := reduce

/-- What `mr-out-r` is to hold: each word of the bucket with the number of its occurrences. -/
def counts (files : List String) (nReduce : Nat) (input : String → Option String) (r : Nat) : List Char :=
  (sortedSet ((allWords isLetter input files).filter (fun w => bucket nReduce w = r))).flatMap
    (fun w => outputLine w (toString ((allWords isLetter input files).count w)))

end Wc

section Wc

variable {isLetter} {files : List String} {nReduce : Nat} {input : String → Option String}

theorem wc_unordered : (Wc.job isLetter files nReduce input).Unordered (Wc.map isLetter) := by
  intro file content kva hem
  rw [of_decide_eq_true hem]

theorem wc_orderInsensitive : OrderInsensitive Wc.reduce := by
  intro _ vs vs' hperm
  show toString vs.length = toString vs'.length
  rw [hperm.length_eq]

variable (isLetter files nReduce input)

/-- What is emitted, file after file, is each word with a 1. -/
theorem wc_mapAll : (Wc.job isLetter files nReduce input).mapAll (Wc.map isLetter) files
    = (allWords isLetter input files).map (fun w => ⟨w, "1"⟩) := by
  unfold Job.mapAll allWords
  rw [List.map_flatMap]
  refine List.flatMap_congr (fun file _ => ?_)
  show ((input file).map (Wc.map isLetter file)).getD [] = _
  cases input file with
  | none => rfl
  | some content => rfl

theorem wc_values (l : List String) (w : String) :
    (valuesOf KeyValue.key KeyValue.value w (l.map (fun w => ⟨w, "1"⟩))).length = l.count w := by
  unfold valuesOf
  rw [List.length_map, List.filter_map, List.length_map, List.count, List.countP_eq_length_filter]
  rfl

/-- The text of an output file, for this map and this reduce function: the counts of its bucket. -/
theorem wc_outputText (r : Nat) : (Wc.job isLetter files nReduce input).outputText (Wc.map isLetter) r
    = Wc.counts isLetter files nReduce input r := by
  show (sortedSet ((((Wc.job isLetter files nReduce input).mapAll (Wc.map isLetter) files).map
    KeyValue.key).filter _)).flatMap (chunkOf _ ((Wc.job isLetter files nReduce input).mapAll _ files)) = _
  rw [wc_mapAll, List.map_map]
  show (sortedSet (((allWords isLetter input files).map id).filter _)).flatMap _ = _
  rw [List.map_id]
  refine List.flatMap_congr (fun w _ => ?_)
  show outputLine w (toString (valuesOf _ _ w _).length) = _
  rw [wc_values]

/-- **The word count.** Whatever crashes and delays there are, an output file never holds anything but the words of
    its bucket in order, each with the number of its occurrences in all files, and in a finished job all output
    files are there. -/
theorem wc_outputs : ∀ tr s, Reaches (jobSys (Wc.job isLetter files nReduce input)) tr s → Provisos nReduce tr →
    (∀ r c, s.dir.lookup (outName r) = some c → c = Wc.counts isLetter files nReduce input r)
    ∧ (s.coord.phase = .allDone →
        ∀ r < nReduce, s.dir.lookup (outName r) = some (Wc.counts isLetter files nReduce input r)) := by
  intro tr s h hprov
  simp only [← wc_outputText]
  exact output_text wc_unordered wc_orderInsensitive h hprov

end Wc

/-- Worker 0 is so slow with the only map task that worker 1 does it too; it replaces the file all the same, and its
    records are the ones that are read. -/
def slowMapTrace (kva kva' sorted : List KeyValue) : List JobEvent :=
  [.assign 0 0 ⟨.map, "in", 1, 0, 0⟩, .act 0 (.runMap kva), .tick 11000000000 true,
    .assign 1 12000000000 ⟨.map, "in", 1, 0, 1⟩, .act 1 (.runMap kva'), .act 1 (.createTemp 8),
    .act 1 (.publish 0), .report 1 ⟨.map, 0, 1⟩ true, .act 0 (.createTemp 7), .act 0 (.publish 0),
    .assign 1 12000000000 ⟨.reduce, "", 1, 0, 0⟩, .act 1 (.glob 0 ["mr-0-0"]),
    .act 1 (.read "mr-0-0" (encodeRecords kva)), .act 1 (.runReduce sorted 9), .act 1 (.publishOut 0),
    .report 1 ⟨.reduce, 0, 0⟩ true]

/-- After the slow worker has replaced the map output, the counts are right. -/
theorem wc_outputs_slowMap :
    ∃ tr s, Reaches (jobSys (Wc.job Char.isAlpha ["in"] 1 (fun _ => some "b a, b"))) tr s
      ∧ s.dir.lookup (outName 0) = some "a 1\nb 2\n".toList := by
  have hrun : ∃ s, Reaches (jobSys (Wc.job Char.isAlpha ["in"] 1 (fun _ => some "b a, b")))
        (slowMapTrace [⟨"b", "1"⟩, ⟨"a", "1"⟩, ⟨"b", "1"⟩] [⟨"b", "1"⟩, ⟨"a", "1"⟩, ⟨"b", "1"⟩]
          [⟨"a", "1"⟩, ⟨"b", "1"⟩, ⟨"b", "1"⟩]) s
      ∧ decide (s.coord.phase = .allDone) = true :=
    exists_reaches_with (jobSys_computedBy _) _ (by decide +kernel)
  obtain ⟨s, h, hs⟩ := hrun
  have hout := (wc_outputs Char.isAlpha ["in"] 1 _ _ s h ⟨by decide, by decide⟩).2 (of_decide_eq_true hs) 0 (by decide)
  exact ⟨_, s, h, hout.trans (congrArg some (by decide +kernel))⟩

/-! ## The indexer -/

namespace Indexer

/-- `Map`, with the words in one of the orders in which the Go map may be gone through. -/
def map (document value : String) : List KeyValue :=
  (words isLetter value).dedup.map (fun w => ⟨w, document⟩)

/-- `Reduce`. -/
def reduce (_key : String) (values : List String) : String :=
  let values := values.insertionSort (· ≤ ·)
  toString values.length ++ " " ++ ",".intercalate values

/-- A job that runs the application; each execution of the map function has an order of its own. -/
def job (files : List String) (nReduce : Nat) (input : String → Option String) : Job where
  files := files
  nReduce := nReduce
  input := input
  emits document value kva := kva.Perm (map isLetter document value)
  reducef := reduce

/-- The files a word occurs in. -/
def documents (files : List String) (input : String → Option String) (w : String) : List String :=
  files.filter (fun file => (input file).any (fun value => w ∈ words isLetter value))

/-- What `mr-out-r` is to hold: each word of the bucket with the number and the sorted list of its files. -/
def index (files : List String) (nReduce : Nat) (input : String → Option String) (r : Nat) : List Char :=
  (sortedSet ((allWords isLetter input files).filter (fun w => bucket nReduce w = r))).flatMap (fun w =>
    let docs := documents isLetter files input w
    outputLine w (toString docs.length ++ " " ++ ",".intercalate (docs.insertionSort (· ≤ ·))))

end Indexer

section Indexer

variable {isLetter} {files : List String} {nReduce : Nat} {input : String → Option String}

theorem indexer_unordered : (Indexer.job isLetter files nReduce input).Unordered (Indexer.map isLetter) := by
  intro file content kva hem
  exact of_decide_eq_true hem

theorem indexer_orderInsensitive : OrderInsensitive Indexer.reduce := by
  intro _ vs vs' hperm
  have hsort : vs.insertionSort (· ≤ ·) = vs'.insertionSort (· ≤ ·) := by
    refine List.Perm.eq_of_pairwise ?_ (List.pairwise_insertionSort _ _) (List.pairwise_insertionSort _ _) ?_
    · intro a b _ _ hab hba
      exact le_antisymm hab hba
    · exact ((List.perm_insertionSort _ _).trans hperm).trans (List.perm_insertionSort _ _).symm
  unfold Indexer.reduce
  rw [hsort]

variable (isLetter files nReduce input)

/-- The words that are emitted, each once a file, are the words of all files. -/
theorem indexer_keys (w : String) :
    w ∈ ((Indexer.job isLetter files nReduce input).mapAll (Indexer.map isLetter) files).map KeyValue.key
      ↔ w ∈ allWords isLetter input files := by
  unfold Job.mapAll allWords
  rw [List.map_flatMap, List.mem_flatMap, List.mem_flatMap]
  refine exists_congr (fun file => and_congr_right (fun _ => ?_))
  show w ∈ (((input file).map (Indexer.map isLetter file)).getD []).map KeyValue.key ↔ _
  cases input file with
  | none => exact Iff.rfl
  | some value => simp [Indexer.map]

/-- A file that has the word emits it with its own name, once. -/
theorem indexer_file_values (file value w : String) :
    valuesOf KeyValue.key KeyValue.value w (Indexer.map isLetter file value)
      = if w ∈ words isLetter value then [file] else [] := by
  have hcount : (words isLetter value).dedup.filter (fun v => v = w)
      = if w ∈ words isLetter value then [w] else [] := by
    rw [List.filter_eq, List.count_dedup]
    split <;> rfl
  unfold valuesOf Indexer.map
  rw [List.filter_map, List.map_map]
  show ((words isLetter value).dedup.filter (fun v => v = w)).map (fun _ => file) = _
  rw [hcount]
  split <;> rfl

/-- A word's values are the files it occurs in. -/
theorem indexer_values (w : String) :
    valuesOf KeyValue.key KeyValue.value w
        ((Indexer.job isLetter files nReduce input).mapAll (Indexer.map isLetter) files)
      = Indexer.documents isLetter files input w := by
  show valuesOf _ _ w (files.flatMap (fun file => ((input file).map (Indexer.map isLetter file)).getD []))
    = files.filter (fun file => (input file).any (fun value => w ∈ words isLetter value))
  induction files with
  | nil => rfl
  | cons file rest ih =>
      rw [List.flatMap_cons, valuesOf_append, ih, List.filter_cons]
      cases input file with
      | none => rfl
      | some value =>
          rw [Option.map_some, Option.getD_some, indexer_file_values]
          by_cases hw : w ∈ words isLetter value
          · simp [hw]
          · simp [hw]

/-- The text of an output file is the index of its bucket. -/
theorem indexer_outputText (r : Nat) : (Indexer.job isLetter files nReduce input).outputText (Indexer.map isLetter) r
    = Indexer.index isLetter files nReduce input r := by
  have hkeys : sortedSet ((((Indexer.job isLetter files nReduce input).mapAll (Indexer.map isLetter) files).map
        KeyValue.key).filter (fun key => bucket nReduce key = r))
      = sortedSet ((allWords isLetter input files).filter (fun w => bucket nReduce w = r)) := by
    refine sortedSet_congr (fun w => ?_)
    rw [List.mem_filter, List.mem_filter, indexer_keys]
  show (sortedSet ((((Indexer.job isLetter files nReduce input).mapAll (Indexer.map isLetter) files).map
    KeyValue.key).filter (fun key => bucket nReduce key = r))).flatMap (chunkOf Indexer.reduce
      ((Indexer.job isLetter files nReduce input).mapAll (Indexer.map isLetter) files)) = _
  rw [hkeys]
  refine List.flatMap_congr (fun w _ => ?_)
  unfold chunkOf
  rw [indexer_values]
  simp only [Indexer.reduce, List.length_insertionSort]

/-- **The indexer.** Although its map function emits the words in an order of its own at each attempt, an output file
    never holds anything but the words of its bucket in order, each with the number of the files it occurs in and
    their names in order, and in a finished job all output files are there. -/
theorem indexer_outputs : ∀ tr s, Reaches (jobSys (Indexer.job isLetter files nReduce input)) tr s →
    Provisos nReduce tr →
    (∀ r c, s.dir.lookup (outName r) = some c → c = Indexer.index isLetter files nReduce input r)
    ∧ (s.coord.phase = .allDone →
        ∀ r < nReduce, s.dir.lookup (outName r) = some (Indexer.index isLetter files nReduce input r)) := by
  intro tr s h hprov
  simp only [← indexer_outputText]
  exact output_text indexer_unordered indexer_orderInsensitive h hprov

/-- The slow worker has emitted the words in another order, and the index is right. -/
theorem indexer_outputs_slowMap :
    ∃ tr s, Reaches (jobSys (Indexer.job Char.isAlpha ["in"] 1 (fun _ => some "b a, b"))) tr s
      ∧ s.dir.lookup (outName 0) = some "a 1 in\nb 1 in\n".toList := by
  have hrun : ∃ s, Reaches (jobSys (Indexer.job Char.isAlpha ["in"] 1 (fun _ => some "b a, b")))
        (slowMapTrace [⟨"b", "in"⟩, ⟨"a", "in"⟩] [⟨"a", "in"⟩, ⟨"b", "in"⟩] [⟨"a", "in"⟩, ⟨"b", "in"⟩]) s
      ∧ decide (s.coord.phase = .allDone) = true :=
    exists_reaches_with (jobSys_computedBy _) _ (by decide +kernel)
  obtain ⟨s, h, hs⟩ := hrun
  have hout := (indexer_outputs Char.isAlpha ["in"] 1 _ _ s h ⟨by decide, by decide⟩).2 (of_decide_eq_true hs) 0
    (by decide)
  exact ⟨_, s, h, hout.trans (congrArg some (by decide +kernel))⟩

end Indexer

end MapReduce
end DistributedLabs
