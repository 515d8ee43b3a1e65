import Mathlib.Data.String.Basic
import DistributedLabs.Lib.Grouping
import DistributedLabs.MapReduce.Records

/-!
# `MapReduce.Dataflow` — sort, group, reduce, and the sequential program

The loop over a sorted slice that `reduceHelper` and `mrsequential` share, with its two indices, and what it
writes: one chunk of text for each group of equal keys (`reduceOutput_eq`). From there on the text is a
matter of groups (`Lib.Grouping`): `reduceOutput_chunks` says that the chunks depend on the records only as a
multiset, `reduceOutput_unique` that the text does too, and `partitioned_lines` that the lines written bucket
by bucket are the lines the sequential program writes.

The results are about lines and not about chunks because a reduce function may return text with newlines in it.
A chunk ends in a newline, so the lines of a text made of chunks are those of its chunks (`lines_flatten`), in
whatever order the chunks come.
-/

namespace DistributedLabs
namespace MapReduce

open Lib

/-! ## The loop -/

/-- The inner loop: the first index from `j` on whose key is another one. -/
def groupEnd (kva : List KeyValue) (key : String) : Nat → Nat → Nat
  | 0, j => j
  | fuel + 1, j =>
      match kva[j]? with
      | some kv => if kv.key = key then groupEnd kva key fuel (j + 1) else j
      | none => j

/-- `fmt.Fprintf(writer, "%v %v\n", key, output)`. -/
def outputLine (key output : String) : List Char := key.toList ++ ' ' :: (output.toList ++ ['\n'])

/-- The outer loop, from index `i` on. -/
def reduceLoop (reducef : String → List String → String) (kva : List KeyValue) : Nat → Nat → List Char
  | 0, _ => []
  | fuel + 1, i =>
      match kva[i]? with
      | none => []
      | some kv =>
          let j := groupEnd kva kv.key kva.length (i + 1)
          let values := ((kva.drop i).take (j - i)).map KeyValue.value
          outputLine kv.key (reducef kv.key values) ++ reduceLoop reducef kva fuel j

/-- What is written for a sorted slice of records. -/
def reduceOutput (reducef : String → List String → String) (kva : List KeyValue) : List Char :=
  reduceLoop reducef kva kva.length 0

/-- The calls of the reduce function that the loop makes from index `i` on: the key and the values of each. -/
def reduceCallsFrom (kva : List KeyValue) : Nat → Nat → List (String × List String)
  | 0, _ => []
  | fuel + 1, i =>
      match kva[i]? with
      | none => []
      | some kv =>
          let j := groupEnd kva kv.key kva.length (i + 1)
          (kv.key, ((kva.drop i).take (j - i)).map KeyValue.value) :: reduceCallsFrom kva fuel j

/-- The calls of the reduce function for a sorted slice of records, in order. -/
def reduceCalls (kva : List KeyValue) : List (String × List String) := reduceCallsFrom kva kva.length 0

/-- The results `sort.Sort(ByKey(kva))` may have: the sort is not stable. -/
def SortsTo (kva sorted : List KeyValue) : Prop := SortedBy KeyValue.key sorted ∧ sorted.Perm kva

instance (kva sorted : List KeyValue) : Decidable (SortsTo kva sorted) :=
  inferInstanceAs (Decidable (sorted.Pairwise (fun a b => a.key ≤ b.key) ∧ sorted.Perm kva))

/-! ## The loop goes over the groups -/

/-- The inner loop stops behind the records that have the key, given enough turns. -/
theorem groupEnd_eq (kva : List KeyValue) (key : String) {fuel j : Nat} (hfuel : kva.length ≤ fuel + j) :
    groupEnd kva key fuel j = j + ((kva.drop j).takeWhile (fun kv => kv.key = key)).length := by
  induction fuel generalizing j with
  | zero =>
      rw [List.drop_eq_nil_of_le (by omega)]
      rfl
  | succ fuel ih =>
      rw [groupEnd]
      cases hj : kva[j]? with
      | none =>
          rw [List.drop_eq_nil_of_le (List.getElem?_eq_none_iff.mp hj)]
          rfl
      | some kv =>
          obtain ⟨hlt, hget⟩ := List.getElem?_eq_some_iff.mp hj
          rw [List.drop_eq_getElem_cons hlt, hget]
          by_cases hk : kv.key = key
          · rw [List.takeWhile_cons_of_pos (by simpa using hk), List.length_cons]
            simp only [hk, if_true]
            rw [ih (by omega)]
            omega
          · rw [List.takeWhile_cons_of_neg (by simpa using hk)]
            simp [hk]

/-- Each call writes one line of text. -/
theorem reduceLoop_calls (reducef : String → List String → String) (kva : List KeyValue) (fuel i : Nat) :
    reduceLoop reducef kva fuel i
      = (reduceCallsFrom kva fuel i).flatMap (fun c => outputLine c.1 (reducef c.1 c.2)) := by
  induction fuel generalizing i with
  | zero => rfl
  | succ fuel ih =>
      rw [reduceLoop, reduceCallsFrom]
      cases kva[i]? with
      | none => rfl
      | some kv => simp only [ih, List.flatMap_cons]

/-- From index `i` on, the calls are the groups of what is left. -/
theorem reduceCallsFrom_eq (kva : List KeyValue) {fuel i : Nat} (hfuel : kva.length ≤ fuel + i) :
    reduceCallsFrom kva fuel i = groups KeyValue.key KeyValue.value (kva.drop i) := by
  induction fuel generalizing i with
  | zero =>
      rw [List.drop_eq_nil_of_le (by omega)]
      rfl
  | succ fuel ih =>
      rw [reduceCallsFrom]
      cases hi : kva[i]? with
      | none =>
          rw [List.drop_eq_nil_of_le (List.getElem?_eq_none_iff.mp hi)]
          rfl
      | some kv =>
          obtain ⟨hlt, hget⟩ := List.getElem?_eq_some_iff.mp hi
          have hend := groupEnd_eq kva kv.key (j := i + 1) (show kva.length ≤ kva.length + (i + 1) by omega)
          -- the slice between the indices is the run, and the loop goes on behind it
          have htake : ((kva.drop i).take (groupEnd kva kv.key kva.length (i + 1) - i))
              = kv :: (kva.drop (i + 1)).takeWhile (fun b => b.key = kv.key) := by
            rw [hend, List.drop_eq_getElem_cons hlt, hget,
              show i + 1 + ((kva.drop (i + 1)).takeWhile (fun b => decide (b.key = kv.key))).length - i
                = ((kva.drop (i + 1)).takeWhile (fun b => decide (b.key = kv.key))).length + 1 by omega,
              List.take_succ_cons, ← List.prefix_iff_eq_take.mp (List.takeWhile_prefix _)]
          have hdrop : kva.drop (groupEnd kva kv.key kva.length (i + 1))
              = (kva.drop (i + 1)).dropWhile (fun b => b.key = kv.key) := by
            rw [hend, ← List.drop_drop, drop_length_takeWhile]
          have hlater : kva.length ≤ fuel + groupEnd kva kv.key kva.length (i + 1) := by
            rw [hend]
            omega
          simp only [htake, ih hlater, hdrop, List.map_cons]
          rw [List.drop_eq_getElem_cons hlt, hget, groups_cons]

/-- The calls are the groups of equal adjacent keys. -/
theorem reduceCalls_eq (kva : List KeyValue) : reduceCalls kva = groups KeyValue.key KeyValue.value kva := by
  unfold reduceCalls
  rw [reduceCallsFrom_eq kva (Nat.le_refl _), List.drop_zero]

theorem reduceOutput_calls (reducef : String → List String → String) (kva : List KeyValue) :
    reduceOutput reducef kva = (reduceCalls kva).flatMap (fun c => outputLine c.1 (reducef c.1 c.2)) :=
  reduceLoop_calls reducef kva _ _

/-- What is written is one line of text for each group, in order. -/
theorem reduceOutput_eq (reducef : String → List String → String) (kva : List KeyValue) :
    reduceOutput reducef kva
      = (groups KeyValue.key KeyValue.value kva).flatMap (fun g => outputLine g.1 (reducef g.1 g.2)) := by
  rw [reduceOutput_calls, reduceCalls_eq]

/-! ## Chunks and lines -/

/-- A reduce function that does not look at the order of its values. -/
def OrderInsensitive (reducef : String → List String → String) : Prop :=
  ∀ key {vs vs' : List String}, vs.Perm vs' → reducef key vs = reducef key vs'

/-- The text written for one key of a list of records. -/
def chunkOf (reducef : String → List String → String) (kva : List KeyValue) (key : String) : List Char :=
  outputLine key (reducef key (valuesOf KeyValue.key KeyValue.value key kva))

/-- The texts written for a list of records, one for each key. -/
def chunks (reducef : String → List String → String) (kva : List KeyValue) : List (List Char) :=
  (distinctKeys KeyValue.key kva).map (chunkOf reducef kva)

/-- The text of a sorted slice is made of its chunks, in some order. -/
theorem reduceOutput_chunks {reducef : String → List String → String} (hred : OrderInsensitive reducef)
    {kva sorted : List KeyValue} (hsort : SortsTo kva sorted) :
    ∃ cs : List (List Char), reduceOutput reducef sorted = cs.flatten ∧ cs.Perm (chunks reducef kva) := by
  refine ⟨_, ?_, groups_perm (f := fun key vs => outputLine key (reducef key vs)) ?_ hsort.1 hsort.2⟩
  · rw [reduceOutput_eq, List.flatMap_def]
  · intro key vs vs' hvs
    rw [hred key hvs]

/-- However the records were sorted, the same text is written. -/
theorem reduceOutput_unique {reducef : String → List String → String} (hred : OrderInsensitive reducef)
    {kva sorted sorted' : List KeyValue} (hsort : SortsTo kva sorted) (hsort' : SortsTo kva sorted') :
    reduceOutput reducef sorted = reduceOutput reducef sorted' := by
  rw [reduceOutput_eq, reduceOutput_eq, List.flatMap_def, List.flatMap_def]
  refine congrArg List.flatten (groups_unique (f := fun key vs => outputLine key (reducef key vs)) ?_
    hsort.1 hsort'.1 hsort.2 hsort'.2)
  intro key vs vs' hvs
  rw [hred key hvs]

/-- The lines of a text; the last one may lack its newline. -/
def lines : List Char → List (List Char)
  | [] => []
  | c :: rest =>
      if c = '\n' then [] :: lines rest
      else
        match lines rest with
        | [] => [[c]]
        | l :: ls => (c :: l) :: ls

/-- Lines do not reach across a newline. -/
theorem lines_append (x y : List Char) : lines ((x ++ ['\n']) ++ y) = lines (x ++ ['\n']) ++ lines y := by
  induction x with
  | nil => simp [lines]
  | cons c x ih =>
      rw [List.cons_append, List.cons_append, lines, lines, ih]
      by_cases hc : c = '\n'
      · simp [hc]
      · simp only [hc, if_false]
        cases hx : lines (x ++ ['\n']) with
        | nil =>
            -- a text that ends in a newline has a line
            cases x with
            | nil => simp [lines] at hx
            | cons d x =>
                rw [List.cons_append, lines] at hx
                split at hx
                · cases hx
                · split at hx <;> cases hx
        | cons l ls => rfl

theorem lines_outputLine (key output : String) (rest : List Char) :
    lines (outputLine key output ++ rest) = lines (outputLine key output) ++ lines rest := by
  have hsplit : outputLine key output = (key.toList ++ ' ' :: output.toList) ++ ['\n'] := by
    simp [outputLine]
  rw [hsplit]
  exact lines_append _ rest

/-- The lines of a text made of chunks are the lines of the chunks. -/
theorem lines_flatten {cs : List (List Char)} (h : ∀ c ∈ cs, ∃ key output, c = outputLine key output) :
    lines cs.flatten = cs.flatMap lines := by
  induction cs with
  | nil => rfl
  | cons c cs ih =>
      obtain ⟨key, output, rfl⟩ := h c (List.mem_cons_self ..)
      rw [List.flatten_cons, lines_outputLine, ih (fun c hc => h c (List.mem_cons_of_mem _ hc)),
        List.flatMap_cons]

/-- The lines written for a list of records, however it was sorted. -/
theorem lines_reduceOutput {reducef : String → List String → String} (hred : OrderInsensitive reducef)
    {kva sorted : List KeyValue} (hsort : SortsTo kva sorted) :
    (lines (reduceOutput reducef sorted)).Perm ((chunks reducef kva).flatMap lines) := by
  obtain ⟨cs, hcs, hperm⟩ := reduceOutput_chunks hred hsort
  rw [hcs, lines_flatten]
  · exact hperm.flatMap_right lines
  · intro c hc
    obtain ⟨key, _, rfl⟩ := List.mem_map.mp (hperm.subset hc)
    exact ⟨key, _, rfl⟩

/-! ## Bucket by bucket -/

theorem bucket_lt {nReduce : Nat} (hn : 1 ≤ nReduce) (key : String) : bucket nReduce key < nReduce :=
  Nat.mod_lt _ hn

/-- The chunks of the buckets are the chunks of the whole. -/
theorem chunks_perm_buckets {nReduce : Nat} (hn : 1 ≤ nReduce) (reducef : String → List String → String)
    (kva : List KeyValue) :
    ((List.range nReduce).flatMap (fun r => chunks reducef (inBucket nReduce r kva))).Perm
      (chunks reducef kva) := by
  have hchunk : ∀ r, chunks reducef (inBucket nReduce r kva)
      = (distinctKeys KeyValue.key (partOf KeyValue.key (bucket nReduce) r kva)).map (chunkOf reducef kva) := by
    intro r
    refine List.map_congr_left (fun key hkey => ?_)
    obtain ⟨kv, hkv, rfl⟩ := (mem_distinctKeys KeyValue.key).mp hkey
    have hr : bucket nReduce kv.key = r := by simpa [inBucket] using (List.mem_filter.mp hkv).2
    show outputLine _ (reducef _ (valuesOf _ _ _ (partOf KeyValue.key (bucket nReduce) r kva))) = _
    rw [valuesOf_partOf KeyValue.key KeyValue.value hr]
    rfl
  simp only [hchunk]
  rw [← List.map_flatMap]
  exact (distinctKeys_perm_parts KeyValue.key (bucket_lt hn) kva).map _

/-- The lines written bucket by bucket are the lines written for all records at once, whatever the sorts did. -/
theorem partitioned_lines {nReduce : Nat} (hn : 1 ≤ nReduce) {reducef : String → List String → String}
    (hred : OrderInsensitive reducef) {kva whole : List KeyValue} (hwhole : SortsTo kva whole)
    {out : Nat → List Char}
    (hout : ∀ r < nReduce, (lines (out r)).Perm ((chunks reducef (inBucket nReduce r kva)).flatMap lines)) :
    ((List.range nReduce).flatMap (fun r => lines (out r))).Perm (lines (reduceOutput reducef whole)) := by
  have hbuckets : ((List.range nReduce).flatMap (fun r => lines (out r))).Perm
      ((List.range nReduce).flatMap (fun r => (chunks reducef (inBucket nReduce r kva)).flatMap lines)) :=
    List.Perm.flatMap_left _ (fun r hr => hout r (List.mem_range.mp hr))
  have hwholeLines := lines_reduceOutput hred hwhole
  refine hbuckets.trans (List.Perm.trans ?_ hwholeLines.symm)
  rw [← List.flatMap_assoc]
  exact (chunks_perm_buckets hn reducef kva).flatMap_right lines

end MapReduce
end DistributedLabs
