import Mathlib.Data.List.Induction
import DistributedLabs.Lib.Json

/-!
# `MapReduce.Records` — key/value records, their files and their buckets

A map worker writes each record it emits, as a line of JSON, to the buffer of the reduce task that the hash of
the key selects. A reduce worker reads a file record by record until the decoder reports an error, which the
end of the file is one kind of. `decodeStream_encodeRecords` says that a file of written records is read back
exactly; what the decoder makes of other files matters too, since the worker's wildcard finds more than the
files written for it.

The text of a record is a JSON object with two strings, and the decoder parses with `Lib.Json`. So the round
trip of a record (`parseValue_record`) is the library's at one object, and the round trip of a file is an
induction over its records. `encodeBuckets_get` says what the encode loop puts into each buffer: the records of
the bucket, in the order of emission.
-/

namespace DistributedLabs
namespace MapReduce

open Lib

/-- `KeyValue`: what the map function emits and the reduce function is called on. -/
structure KeyValue where
  key : String
  value : String
deriving DecidableEq, Repr

/-! ## Writing -/

/-- `Encode(&kv)`. -/
def encodeRecord (kv : KeyValue) : List Char :=
  '{' :: (quote "Key" ++ ':' :: (quote kv.key ++ ',' :: (quote "Value" ++ ':' :: (quote kv.value ++
    ['}', '\n']))))

/-- The text of a file: its records, one after another. -/
def encodeRecords (kva : List KeyValue) : List Char := kva.flatMap encodeRecord

/-! ## Reading -/

/-- Go matches the names of fields up to case; the Kelvin sign is a `k` and the long s is an `s`. -/
def foldChar (c : Char) : Char :=
  if c.toNat = 0x212a then 'k' else if c.toNat = 0x17f then 's' else c.toLower

/-- The name of a field as Go compares it. -/
def foldName (name : String) : List Char := name.toList.map foldChar

/-- One member of the object goes into its field. `none` is a type error; `null` leaves a field alone, and
    other members are ignored. -/
def setField (kv : KeyValue) (member : String × Json) : Option KeyValue :=
  if foldName member.1 = foldName "Key" then
    match member.2 with
    | .str s => some { kv with key := s }
    | .null => some kv
    | _ => none
  else if foldName member.1 = foldName "Value" then
    match member.2 with
    | .str s => some { kv with value := s }
    | .null => some kv
    | _ => none
  else some kv

/-- `Decode(&kv)` into a fresh `kv`: `null` is accepted and sets nothing. -/
def decodeRecord : Json → Option KeyValue
  | .null => some ⟨"", ""⟩
  | .obj fields => fields.foldlM setField ⟨"", ""⟩
  | _ => none

/-- The worker's loop over one file: decode until there is an error. -/
def decodeLoop : Nat → List Char → List KeyValue
  | 0, _ => []
  | fuel + 1, cs =>
      match parseValue (parseFuel cs) maxNestingDepth cs with
      | none => []
      | some (v, rest) =>
          match decodeRecord v with
          | none => []
          | some kv => kv :: decodeLoop fuel rest

/-- Every record takes at least one character. -/
def decodeStream (cs : List Char) : List KeyValue := decodeLoop (cs.length + 1) cs

/-! ## The round trip of records -/

theorem decodeRecord_fields (kv : KeyValue) :
    decodeRecord (.obj [("Key", .str kv.key), ("Value", .str kv.value)]) = some kv := by
  have hkey : setField ⟨"", ""⟩ ("Key", .str kv.key) = some ⟨kv.key, ""⟩ := by
    simp [setField]
  have hvalue : setField ⟨kv.key, ""⟩ ("Value", .str kv.value) = some kv := by
    have hne : foldName "Value" ≠ foldName "Key" := by decide
    simp [setField, hne]
  simp [decodeRecord, List.foldlM, hkey, hvalue]

/-- A written record is read back, after any space and whatever follows. -/
theorem parseValue_record {ws : List Char} (hws : ∀ c ∈ ws, isSpace c = true) (fuel depth : Nat)
    (kv : KeyValue) (rest : List Char) :
    parseValue (fuel + 4) (depth + 1) (ws ++ (encodeRecord kv ++ rest))
      = some (.obj [("Key", .str kv.key), ("Value", .str kv.value)], '\n' :: rest) := by
  have htext : encodeRecord kv ++ rest = '{' :: (quote "Key" ++ ':' :: (quote kv.key ++ ',' ::
      (quote "Value" ++ ':' :: (quote kv.value ++ '}' :: '\n' :: rest)))) := by
    simp [encodeRecord]
  have hmembers := parseMembers_more (fuel + 1) depth "Key" kv.key
    (quote "Value" ++ ':' :: (quote kv.value ++ '}' :: '\n' :: rest))
  rw [parseMembers_last fuel depth "Value" kv.value ('\n' :: rest)] at hmembers
  rw [quote_append] at hmembers htext
  rw [htext]
  exact parseValue_object hws hmembers

theorem encodeRecord_length (kv : KeyValue) : 2 ≤ (encodeRecord kv).length := by
  simp [encodeRecord]
  omega

/-- The loop reads all records of a file, given a turn for each and one for the end. -/
theorem decodeLoop_encodeRecords (kva : List KeyValue) {ws : List Char}
    (hws : ∀ c ∈ ws, isSpace c = true) {fuel : Nat} (hfuel : kva.length < fuel) :
    decodeLoop fuel (ws ++ encodeRecords kva) = kva := by
  induction kva generalizing ws fuel with
  | nil =>
      cases fuel with
      | zero => rfl
      | succ fuel => simp [decodeLoop, encodeRecords, parseValue_space hws]
  | cons kv kva ih =>
      cases fuel with
      | zero => simp at hfuel
      | succ fuel =>
          have htext : encodeRecords (kv :: kva) = encodeRecord kv ++ encodeRecords kva := by
            simp [encodeRecords]
          have hfuelEq : parseFuel (ws ++ (encodeRecord kv ++ encodeRecords kva))
              = (2 * (ws ++ (encodeRecord kv ++ encodeRecords kva)).length - 2) + 4 := by
            have hlen := encodeRecord_length kv
            simp only [parseFuel, List.length_append]
            omega
          have hparse := parseValue_record hws (2 * (ws ++ (encodeRecord kv ++ encodeRecords kva)).length - 2)
            9999 kv (encodeRecords kva)
          rw [← hfuelEq] at hparse
          have hlt : kva.length < fuel := by simpa using hfuel
          -- the newline of a record is read as space before the next one, which is why `ws` is general
          have hnewline : ∀ c ∈ ['\n'], isSpace c = true := by
            intro c hc
            rw [List.mem_singleton] at hc
            subst hc
            decide
          have hrest := ih hnewline hlt
          rw [List.singleton_append] at hrest
          rw [htext, decodeLoop]
          rw [show maxNestingDepth = 9999 + 1 from rfl, hparse]
          simp only [decodeRecord_fields, hrest]

/-- A file of written records is read back, record by record. -/
theorem decodeStream_encodeRecords (kva : List KeyValue) : decodeStream (encodeRecords kva) = kva := by
  have hlen : kva.length ≤ (encodeRecords kva).length := by
    induction kva with
    | nil => exact Nat.zero_le _
    | cons kv kva ih =>
        have hone := encodeRecord_length kv
        simp only [encodeRecords, List.flatMap_cons, List.length_cons, List.length_append] at ih ⊢
        omega
  have hnone : ∀ c ∈ ([] : List Char), isSpace c = true := by simp
  exact decodeLoop_encodeRecords kva hnone (Nat.lt_succ_of_le hlen)

example : decodeStream "null 1\n".toList = [⟨"", ""⟩] := by decide +kernel

/-! ## Buckets -/

/-- FNV-1a, 32 bits, over the bytes of the key. -/
def fnv32a (bytes : List UInt8) : UInt32 :=
  bytes.foldl (fun h b => (h ^^^ b.toUInt32) * 16777619) 2166136261

/-- `ihash`: the hash of the key, made positive. -/
def ihash (key : String) : Nat :=
  (fnv32a (key.toList.flatMap String.utf8EncodeChar) &&& 0x7fffffff).toNat

/-- The reduce task of a key. -/
def bucket (nReduce : Nat) (key : String) : Nat := ihash key % nReduce

/-- The worker's encode loop: each record goes to the end of its bucket's buffer. -/
def encodeBuckets (nReduce : Nat) (kva : List KeyValue) : List (List Char) :=
  kva.foldl (fun bufs kv => bufs.modify (bucket nReduce kv.key) (· ++ encodeRecord kv))
    (List.replicate nReduce [])

/-- The records of one bucket, in the order in which they were emitted. -/
def inBucket (nReduce r : Nat) (kva : List KeyValue) : List KeyValue :=
  kva.filter (fun kv => bucket nReduce kv.key = r)

/-- A bucket's buffer holds exactly its records. -/
theorem encodeBuckets_get {nReduce r : Nat} (hr : r < nReduce) (kva : List KeyValue) :
    (encodeBuckets nReduce kva)[r]? = some (encodeRecords (inBucket nReduce r kva)) := by
  induction kva using List.reverseRecOn with
  | nil => simp [encodeBuckets, inBucket, encodeRecords, hr]
  | append_singleton kva kv ih =>
      have hstep : encodeBuckets nReduce (kva ++ [kv])
          = (encodeBuckets nReduce kva).modify (bucket nReduce kv.key) (· ++ encodeRecord kv) := by
        simp [encodeBuckets]
      rw [hstep, List.getElem?_modify, ih]
      by_cases hk : bucket nReduce kv.key = r
      · simp [inBucket, encodeRecords, hk]
      · simp [inBucket, encodeRecords, hk]

end MapReduce
end DistributedLabs
