import DistributedLabs.MapReduce.Dataflow

/-!
# `MapReduce.Partition` — the dataflow by itself

What a job computes when nothing goes wrong, apart from workers and files: every map output is split into
`nReduce` buckets and encoded, for each reduce task the encoded buckets are decoded in some order, sorted
somehow and run through the loop. `ReadsTo` leaves the order open and `SortsTo` the sort. Since each key
belongs to one bucket, the calls of the reduce function over all tasks are the calls of the sequential
program: the same keys, each once, with the same values up to their order.

The order of the argument:

* `ReadsTo.perm`: whatever the order of reading, a task has the records of its bucket.
* `reduceCalls_keys_lt`, `reduceCalls_values`: what the loop calls for a sorted slice.
* `SortedParts.keys_perm`, `SortedParts.values_perm`: all tasks together.
* `partitioned_dataflow`: the output files together are the sequential program's output.
-/

namespace DistributedLabs
namespace MapReduce

open Lib

section Dataflow

variable (mapf : String → String → List KeyValue) (nReduce : Nat)

/-- All that is emitted for a list of files with their contents. -/
def emitted (inputs : List (String × String)) : List KeyValue := inputs.flatMap (fun p => mapf p.1 p.2)

/-- The text that a map task puts into the file of bucket `r`. -/
def intermediateText (r : Nat) (p : String × String) : List Char :=
  ((encodeBuckets nReduce (mapf p.1 p.2))[r]?).getD []

/-- The records a reduce task has collected when it has read the files of its bucket, in any order. -/
def ReadsTo (inputs : List (String × String)) (r : Nat) (kva : List KeyValue) : Prop :=
  ∃ order : List (List Char), order.Perm (inputs.map (intermediateText mapf nReduce r))
    ∧ kva = order.flatMap decodeStream

variable {mapf nReduce}

theorem decode_intermediateText {r : Nat} (hr : r < nReduce) (p : String × String) :
    decodeStream (intermediateText mapf nReduce r p) = inBucket nReduce r (mapf p.1 p.2) := by
  unfold intermediateText
  rw [encodeBuckets_get hr, Option.getD_some, decodeStream_encodeRecords]

/-- Whatever the order, the records of the bucket have been collected. -/
theorem ReadsTo.perm {inputs : List (String × String)} {r : Nat} {kva : List KeyValue} (hr : r < nReduce)
    (h : ReadsTo mapf nReduce inputs r kva) : kva.Perm (inBucket nReduce r (emitted mapf inputs)) := by
  obtain ⟨order, hperm, rfl⟩ := h
  have hparts : inBucket nReduce r (emitted mapf inputs)
      = (inputs.map (intermediateText mapf nReduce r)).flatMap decodeStream := by
    unfold emitted inBucket
    rw [List.filter_flatMap, List.flatMap_map]
    exact List.flatMap_congr (fun p _ => (decode_intermediateText hr p).symm)
  rw [hparts]
  exact hperm.flatMap_right decodeStream

/-! ## The calls for a sorted slice -/

theorem reduceCalls_keys_perm {kva sorted : List KeyValue} (hsort : SortsTo kva sorted) :
    ((reduceCalls sorted).map Prod.fst).Perm (distinctKeys KeyValue.key kva) := by
  rw [reduceCalls_eq]
  exact groups_keys_perm hsort.1 hsort.2

/-- The calls come in the order of their keys, and no key comes twice. -/
theorem reduceCalls_keys_lt {kva sorted : List KeyValue} (hsort : SortsTo kva sorted) :
    ((reduceCalls sorted).map Prod.fst).Pairwise (· < ·) := by
  rw [reduceCalls_eq]
  have hle : ((groups KeyValue.key KeyValue.value sorted).map Prod.fst).Pairwise (· ≤ ·) :=
    (List.pairwise_map.mpr hsort.1).sublist (groups_keys_sublist sorted)
  have hne : ((groups KeyValue.key KeyValue.value sorted).map Prod.fst).Nodup :=
    (groups_sorted (Nat.le_refl _) hsort.1).1
  exact hle.imp₂ (fun _ _ => lt_of_le_of_ne) hne

/-- Each call gets the values of its key. -/
theorem reduceCalls_values {kva sorted : List KeyValue} (hsort : SortsTo kva sorted)
    {c : String × List String} (hc : c ∈ reduceCalls sorted) :
    c.2.Perm (valuesOf KeyValue.key KeyValue.value c.1 kva) := by
  rw [reduceCalls_eq] at hc
  rw [(groups_sorted (Nat.le_refl _) hsort.1).2 c hc]
  exact valuesOf_perm _ _ hsort.2 c.1

/-! ## All tasks together -/

section Tasks

variable {inputs : List (String × String)} {sorted : Nat → List KeyValue}

/-- What the reduce tasks may have sorted: for each task some reading of its files, sorted somehow. -/
def SortedParts (mapf : String → String → List KeyValue) (nReduce : Nat) (inputs : List (String × String))
    (sorted : Nat → List KeyValue) : Prop :=
  ∀ r < nReduce, ∃ kva, ReadsTo mapf nReduce inputs r kva ∧ SortsTo kva (sorted r)

theorem SortedParts.sortsTo (h : SortedParts mapf nReduce inputs sorted) {r : Nat} (hr : r < nReduce) :
    SortsTo (inBucket nReduce r (emitted mapf inputs)) (sorted r) := by
  obtain ⟨kva, hreads, hsort⟩ := h r hr
  exact ⟨hsort.1, hsort.2.trans (hreads.perm hr)⟩

/-- A key is reduced by the task of its bucket, once, and by no other. -/
theorem SortedParts.count_key (h : SortedParts mapf nReduce inputs sorted) {kv : KeyValue}
    (hkv : kv ∈ emitted mapf inputs) {r : Nat} (hr : r < nReduce) :
    ((reduceCalls (sorted r)).map Prod.fst).count kv.key = if ihash kv.key % nReduce = r then 1 else 0 := by
  have hsort := h.sortsTo hr
  have hkeys := reduceCalls_keys_perm hsort
  by_cases hbucket : ihash kv.key % nReduce = r
  · rw [if_pos hbucket, hkeys.count_eq]
    refine List.count_eq_one_of_mem (distinctKeys_nodup _ _) ((mem_distinctKeys _).mpr ⟨kv, ?_, rfl⟩)
    exact List.mem_filter.mpr ⟨hkv, decide_eq_true hbucket⟩
  · rw [if_neg hbucket, hkeys.count_eq]
    refine List.count_eq_zero_of_not_mem (fun hmem => hbucket ?_)
    obtain ⟨kv', hkv', hkey⟩ := (mem_distinctKeys _).mp hmem
    rw [← hkey]
    exact of_decide_eq_true (List.mem_filter.mp hkv').2

/-- The calls of all tasks together are about the emitted keys, each once. -/
theorem SortedParts.keys_perm (h : SortedParts mapf nReduce inputs sorted) (hn : 1 ≤ nReduce) :
    ((List.range nReduce).flatMap (fun r => (reduceCalls (sorted r)).map Prod.fst)).Perm
      (distinctKeys KeyValue.key (emitted mapf inputs)) := by
  have hparts : ((List.range nReduce).flatMap (fun r => (reduceCalls (sorted r)).map Prod.fst)).Perm
      ((List.range nReduce).flatMap (fun r =>
        distinctKeys KeyValue.key (inBucket nReduce r (emitted mapf inputs)))) :=
    List.Perm.flatMap_left _ (fun r hr => reduceCalls_keys_perm (h.sortsTo (List.mem_range.mp hr)))
  exact hparts.trans (distinctKeys_perm_parts KeyValue.key (bucket_lt hn) (emitted mapf inputs))

/-- A task's call gets all values that were emitted for the key anywhere. -/
theorem SortedParts.values_perm (h : SortedParts mapf nReduce inputs sorted) {r : Nat} (hr : r < nReduce)
    {c : String × List String} (hc : c ∈ reduceCalls (sorted r)) :
    c.2.Perm (valuesOf KeyValue.key KeyValue.value c.1 (emitted mapf inputs)) := by
  have hsort := h.sortsTo hr
  have hbucket : bucket nReduce c.1 = r := by
    have hkey := (reduceCalls_keys_perm hsort).subset (List.mem_map_of_mem hc)
    obtain ⟨kv, hkv, hkey⟩ := (mem_distinctKeys _).mp hkey
    rw [← hkey]
    simpa [inBucket] using (List.mem_filter.mp hkv).2
  have hvalues := reduceCalls_values hsort hc
  rwa [show inBucket nReduce r (emitted mapf inputs)
      = partOf KeyValue.key (bucket nReduce) r (emitted mapf inputs) from rfl,
    valuesOf_partOf KeyValue.key KeyValue.value hbucket] at hvalues

/-- **The partitioned dataflow is the sequential one.** Every output file is written one line per call of the
    reduce function, in the order of the keys; an emitted key has its one line in the file of its bucket and
    none in any other; all calls together are one for each distinct key, with all of its values and no others;
    and the lines of all files together are the lines of the sequential program. -/
theorem partitioned_dataflow (hn : 1 ≤ nReduce) {reducef : String → List String → String}
    (hred : OrderInsensitive reducef) (hparts : SortedParts mapf nReduce inputs sorted)
    {whole : List KeyValue} (hwhole : SortsTo (emitted mapf inputs) whole) :
    (∀ r < nReduce, reduceOutput reducef (sorted r)
        = (reduceCalls (sorted r)).flatMap (fun c => outputLine c.1 (reducef c.1 c.2)))
    ∧ (∀ r < nReduce, ((reduceCalls (sorted r)).map Prod.fst).Pairwise (· < ·))
    ∧ (∀ kv ∈ emitted mapf inputs, ∀ r < nReduce, ((reduceCalls (sorted r)).map Prod.fst).count kv.key
        = if ihash kv.key % nReduce = r then 1 else 0)
    ∧ ((List.range nReduce).flatMap (fun r => (reduceCalls (sorted r)).map Prod.fst)).Perm
        (distinctKeys KeyValue.key (emitted mapf inputs))
    ∧ (∀ r < nReduce, ∀ c ∈ reduceCalls (sorted r),
        c.2.Perm (valuesOf KeyValue.key KeyValue.value c.1 (emitted mapf inputs)))
    ∧ ((List.range nReduce).flatMap (fun r => lines (reduceOutput reducef (sorted r)))).Perm
        (lines (reduceOutput reducef whole)) := by
  refine ⟨fun r _ => reduceOutput_calls reducef (sorted r), fun r hr => reduceCalls_keys_lt (hparts.sortsTo hr),
    fun kv hkv r hr => hparts.count_key hkv hr, hparts.keys_perm hn,
    fun r hr c hc => hparts.values_perm hr hc, ?_⟩
  exact partitioned_lines hn hred hwhole (fun r hr => lines_reduceOutput hred (hparts.sortsTo hr))

end Tasks

end Dataflow

/-! Two files with a record for each of two buckets; the first bucket is read in the other order. -/

/-- A record under `a`, which goes to bucket 0, and one under `b`, which goes to bucket 1. -/
def pairMap (file content : String) : List KeyValue := [⟨"a", content⟩, ⟨"b", file⟩]

/-- Both tasks' records, sorted; the values under `a` come in the order in which they were read. -/
def pairSorted : Nat → List KeyValue
  | 0 => [⟨"a", "2"⟩, ⟨"a", "1"⟩]
  | _ => [⟨"b", "x"⟩, ⟨"b", "y"⟩]

theorem pairSorted_parts : SortedParts pairMap 2 [("x", "1"), ("y", "2")] pairSorted := by
  intro r hr
  rcases Nat.lt_succ_iff_lt_or_eq.mp hr with hzero | rfl
  · obtain rfl : r = 0 := by omega
    exact ⟨pairSorted 0, ⟨[encodeRecord ⟨"a", "2"⟩, encodeRecord ⟨"a", "1"⟩], by decide +kernel, by decide +kernel⟩,
      by decide⟩
  · exact ⟨pairSorted 1, ⟨[encodeRecord ⟨"b", "x"⟩, encodeRecord ⟨"b", "y"⟩], by decide +kernel, by decide +kernel⟩,
      by decide⟩

/-- Two files, two buckets: the lines of both output files are the sequential ones. -/
theorem partitioned_dataflow_twoBuckets :
    (∀ r < 2, pairSorted r ≠ [])
    ∧ ((List.range 2).flatMap (fun r => lines (reduceOutput (fun _ vs => toString vs.length) (pairSorted r)))).Perm
      (lines (reduceOutput (fun _ vs => toString vs.length) [⟨"a", "1"⟩, ⟨"a", "2"⟩, ⟨"b", "x"⟩, ⟨"b", "y"⟩])) := by
  have hred : OrderInsensitive (fun _ vs => toString vs.length) := by
    intro key vs vs' hperm
    simp only [hperm.length_eq]
  have hwhole : SortsTo (emitted pairMap [("x", "1"), ("y", "2")])
      [⟨"a", "1"⟩, ⟨"a", "2"⟩, ⟨"b", "x"⟩, ⟨"b", "y"⟩] := by decide
  exact ⟨by decide, (partitioned_dataflow (by decide) hred pairSorted_parts hwhole).2.2.2.2.2⟩

end MapReduce
end DistributedLabs
