import Mathlib.Data.List.AList
import Mathlib.Data.List.Induction
import DistributedLabs.KvSrv.Server
import DistributedLabs.Lib.Transition

/-!
# `KvSrv.Model` — the linearizability model against the server

`models1/kv.go` is the specification the porcupine checker runs: it splits a history by key and replays
each part on a single `(value, version)` pair. It was written independently of the server, so the question
is whether a fresh server, fed any sequence of requests, only ever gives answers the model accepts.

The two agree on every Get, and on every Put of a present key whatever its version (both wrap at
`2 ^ 64`). They part at one point: a Put with a non-zero version on a missing key is answered `ErrNoKey`,
and `Step`, which does not know missing keys, accepts only `ErrVersion` or `ErrMaybe` there. The main
result says that this is the whole difference (`model_agrees_iff`).

One request is compared where model and server hold the same (`check_serveLogged`). A run is compared key by key: a
request on another key leaves both alone (`stateOf_serve_ne`), and whether a key is present is a matter of the requests
before (`serverRun_present`). So the condition is one on the requests alone, and can be read off before anything is run.

What the checker does with the histories of concurrent clients is in `KvSrv.OpLog`.
-/

namespace DistributedLabs
namespace KvSrv

/-- A `KvInput`: `op` is 0 for a Get and 1 for a Put. -/
structure KvInput where
  op : UInt8
  key : String
  value : String := ""
  version : UInt64 := 0
deriving DecidableEq, Repr

/-- A `KvOutput`. For a Put only `err` is set. -/
structure KvOutput where
  value : String := ""
  version : UInt64 := 0
  err : Err
deriving DecidableEq, Repr

/-- A `KvState`: the model's idea of one key. -/
structure KvState where
  value : String
  version : UInt64
deriving DecidableEq, Repr

/-- A `porcupine.Operation`, less the time stamps and the client, which the model does not read. -/
structure Operation where
  input : KvInput
  output : KvOutput
deriving DecidableEq, Repr

/-! ## `KvModel` -/

/-- The map `Partition` builds: for each key the operations on it, in history order. -/
def groupByKey (history : List Operation) : AList (fun _ : String => List Operation) :=
  history.foldl (fun m v => m.insert v.input.key ((m.lookup v.input.key).getD [] ++ [v])) ∅

/-- The `KvModel.Partition` function: one part for each key, in key order. -/
def partition (history : List Operation) : List (List Operation) :=
  ((groupByKey history).keys.mergeSort (fun a b => decide (a ≤ b))).map
    (fun k => ((groupByKey history).lookup k).getD [])

/-- `Init`: an empty value at version 0, as for a missing key. -/
def kvInit : KvState := ⟨"", 0⟩

/-- The `KvModel.Step` function. The state of the default branch is a string, here `none`. -/
def kvStep (st : KvState) (inp : KvInput) (out : KvOutput) : Bool × Option KvState :=
  if inp.op = 0 then
    (out.value = st.value, some st)
  else if inp.op = 1 then
    if st.version = inp.version then
      (out.err = .OK ∨ out.err = .ErrMaybe, some ⟨inp.value, st.version + 1⟩)
    else
      (out.err = .ErrVersion ∨ out.err = .ErrMaybe, some st)
  else
    (false, none)

/-- Replay operations one after another: the state at the end, or nothing when one is rejected. -/
def check : KvState → List Operation → Option KvState
  | st, [] => some st
  | st, o :: rest =>
      match kvStep st o.input o.output with
      | (true, some st') => check st' rest
      | _ => none

/-- The state the model ends in for a key: that of the key's part, the initial one if there is none. -/
def finalState (parts : List (List Operation)) (k : String) : Option KvState :=
  match parts.find? (fun part => part.any (fun o => o.input.key = k)) with
  | some part => check kvInit part
  | none => some kvInit

/-! ## A fresh server's history -/

/-- Execute one request, and log it with its reply as `kvtest1/porcupine.go` does. -/
def serveLogged (kv : KVServer) : Op → KVServer × Operation
  | .get args =>
      let reply := kv.get args
      (kv, ⟨{ op := 0, key := args.key }, ⟨reply.value, reply.version, reply.err⟩⟩)
  | .put args =>
      let (kv', reply) := kv.put args
      (kv', ⟨⟨1, args.key, args.value, args.version⟩, { err := reply.err }⟩)

/-- Execute requests one after another; the logged pairs in order. -/
def serverRun : KVServer → List Op → KVServer × List Operation
  | kv, [] => (kv, [])
  | kv, op :: rest =>
      let (kv', o) := serveLogged kv op
      let (kv'', hist) := serverRun kv' rest
      (kv'', o :: hist)

/-- What the model should hold for a key of the server. -/
def stateOf (kv : KVServer) (k : String) : KvState :=
  match kv.kvStore k with
  | none => ⟨"", 0⟩
  | some e => ⟨e.value, e.version⟩

/-- The model accepts a fresh server's run over `reqs`: every part is accepted, and each key ends in the
    server's state for it. -/
def ModelAgrees (reqs : List Op) : Prop :=
  (∀ part ∈ partition (serverRun makeKVServer reqs).2, (check kvInit part).isSome = true)
  ∧ ∀ k, finalState (partition (serverRun makeKVServer reqs).2) k
      = some (stateOf (serverRun makeKVServer reqs).1 k)

/-- Every Put with a non-zero version comes after a Put with version 0 on the same key. -/
def CreatesFirst (reqs : List Op) : Prop :=
  ∀ pre args post, reqs = pre ++ .put args :: post → args.version ≠ 0 →
    ∃ v, Op.put ⟨args.key, v, 0⟩ ∈ pre

/-! ## The partition -/

/-- The part of a history that is about one key. -/
def onKey (k : String) (history : List Operation) : List Operation :=
  history.filter (fun o => o.input.key = k)

theorem groupByKey_snoc (history : List Operation) (v : Operation) :
    groupByKey (history ++ [v]) = (groupByKey history).insert v.input.key
      (((groupByKey history).lookup v.input.key).getD [] ++ [v]) := by
  simp [groupByKey, List.foldl_append]

/-- The map holds, for each key, its operations. -/
theorem groupByKey_lookup (history : List Operation) (k : String) :
    ((groupByKey history).lookup k).getD [] = onKey k history := by
  induction history using List.reverseRecOn with
  | nil => simp [groupByKey, onKey]
  | append_singleton history v ih =>
      rw [groupByKey_snoc]
      by_cases hk : v.input.key = k
      · subst hk
        rw [AList.lookup_insert, Option.getD_some, ih]
        simp [onKey]
      · rw [AList.lookup_insert_ne (fun h => hk h.symm), ih]
        simp [onKey, hk]

/-- The map's keys are the keys that occur. -/
theorem groupByKey_keys (history : List Operation) (k : String) :
    k ∈ (groupByKey history).keys ↔ ∃ o ∈ history, o.input.key = k := by
  induction history using List.reverseRecOn with
  | nil => simp [groupByKey]
  | append_singleton history v ih =>
      rw [groupByKey_snoc, ← AList.mem_keys, AList.mem_insert, AList.mem_keys, ih]
      constructor
      · rintro (rfl | ⟨o, ho, hk⟩)
        · exact ⟨v, by simp, rfl⟩
        · exact ⟨o, by simp [ho], hk⟩
      · rintro ⟨o, ho, hk⟩
        rcases List.mem_append.mp ho with ho | ho
        · exact Or.inr ⟨o, ho, hk⟩
        · left
          rw [← hk, List.mem_singleton.mp ho]

theorem mem_partition {history part : List Operation} :
    part ∈ partition history ↔ ∃ k, (∃ o ∈ history, o.input.key = k) ∧ part = onKey k history := by
  unfold partition
  rw [List.mem_map]
  constructor
  · rintro ⟨k, hk, rfl⟩
    rw [List.mem_mergeSort, groupByKey_keys] at hk
    exact ⟨k, hk, groupByKey_lookup history k⟩
  · rintro ⟨k, hk, rfl⟩
    refine ⟨k, ?_, groupByKey_lookup history k⟩
    rw [List.mem_mergeSort, groupByKey_keys]
    exact hk

/-- The final state of a key is what its own operations lead to. -/
theorem finalState_partition (history : List Operation) (k : String) :
    finalState (partition history) k = check kvInit (onKey k history) := by
  unfold finalState
  cases hfind : (partition history).find? (fun part => part.any (fun o => o.input.key = k)) with
  | none =>
      -- no part mentions `k`, so no operation does
      have hnil : onKey k history = [] := by
        rw [onKey, List.filter_eq_nil_iff]
        intro o ho hk
        have hpart : onKey k history ∈ partition history :=
          mem_partition.mpr ⟨k, ⟨o, ho, by simpa using hk⟩, rfl⟩
        have hno := List.find?_eq_none.mp hfind _ hpart
        refine hno (List.any_eq_true.mpr ⟨o, ?_, hk⟩)
        exact List.mem_filter.mpr ⟨ho, hk⟩
      rw [hnil]
      rfl
  | some part =>
      obtain ⟨k', -, rfl⟩ := mem_partition.mp (List.mem_of_find?_eq_some hfind)
      have hany := List.find?_some hfind
      obtain ⟨o, ho, hk⟩ := List.any_eq_true.mp hany
      have hk' : o.input.key = k' := by simpa using (List.mem_filter.mp ho).2
      have hkk : o.input.key = k := by simpa using hk
      rw [← hk', hkk]

/-! ## One request -/

theorem check_append (st : KvState) (l l' : List Operation) :
    check st (l ++ l') = (check st l).bind (fun st' => check st' l') := by
  induction l generalizing st with
  | nil => rfl
  | cons o rest ih =>
      simp only [List.cons_append, check]
      split
      · exact ih _
      · rfl

theorem serverRun_snoc (kv : KVServer) (reqs : List Op) (op : Op) :
    serverRun kv (reqs ++ [op])
      = ((serveLogged (serverRun kv reqs).1 op).1,
          (serverRun kv reqs).2 ++ [(serveLogged (serverRun kv reqs).1 op).2]) := by
  induction reqs generalizing kv with
  | nil => rfl
  | cons op' rest ih => simp [serverRun, ih]

theorem serveLogged_key (kv : KVServer) (op : Op) : (serveLogged kv op).2.input.key = op.key := by
  cases op <;> rfl

theorem serveLogged_fst (kv : KVServer) (op : Op) : (serveLogged kv op).1 = (kv.dispatch op).1 := by
  cases op <;> rfl

/-- A request on another key leaves a key's state alone. -/
theorem stateOf_serve_ne (kv : KVServer) {op : Op} {k : String} (hk : op.key ≠ k) :
    stateOf (serveLogged kv op).1 k = stateOf kv k := by
  cases op with
  | get args => rfl
  | put args =>
      have hne : k ≠ args.key := fun h => hk h.symm
      show stateOf (kv.put args).1 k = stateOf kv k
      by_cases hv : args.version = kv.currentVersion args.key
      · rw [put_of_current hv, stateOf, set_kvStore_ne hne, stateOf]
      · rw [put_of_not_current hv]

/-- A Put that creates no key although its key is missing: the one request the two sides disagree on. -/
def Op.orphan (kv : KVServer) : Op → Prop
  | .get _ => False
  | .put args => kv.kvStore args.key = none ∧ args.version ≠ 0

/-- On one request the model, at the server's state for the key, accepts the server's reply and follows it
    to the server's next state; unless the request is a Put with a version on a missing key, which it
    rejects. -/
theorem check_serveLogged (kv : KVServer) (op : Op) :
    (¬ op.orphan kv ∧ check (stateOf kv op.key) [(serveLogged kv op).2]
        = some (stateOf (serveLogged kv op).1 op.key))
    ∨ (op.orphan kv ∧ check (stateOf kv op.key) [(serveLogged kv op).2] = none) := by
  cases op with
  | get args =>
      left
      refine ⟨id, ?_⟩
      cases hk : kv.kvStore args.key <;>
        simp [check, serveLogged, kvStep, KVServer.get, stateOf, Op.key, hk]
  | put args =>
      cases hk : kv.kvStore args.key with
      | none =>
          by_cases hv : args.version = 0
          · left
            refine ⟨fun h => h.2 hv, ?_⟩
            simp [check, serveLogged, kvStep, KVServer.put, stateOf, Op.key, hk, hv]
          · right
            refine ⟨⟨hk, hv⟩, ?_⟩
            simp [check, serveLogged, kvStep, KVServer.put, stateOf, Op.key, hk, hv, Ne.symm hv]
      | some e =>
          left
          refine ⟨fun h => Option.some_ne_none e (hk.symm.trans h.1), ?_⟩
          by_cases hv : args.version = e.version
          · simp [check, serveLogged, kvStep, KVServer.put, stateOf, Op.key, hk, hv]
          · simp [check, serveLogged, kvStep, KVServer.put, stateOf, Op.key, hk, hv, Ne.symm hv]

/-! ## Which keys exist -/

/-- After a run a key is present exactly when a Put with version 0 was among its requests. -/
theorem serverRun_present (reqs : List Op) (k : String) :
    (serverRun makeKVServer reqs).1.kvStore k ≠ none ↔ ∃ v, Op.put ⟨k, v, 0⟩ ∈ reqs := by
  induction reqs using List.reverseRecOn with
  | nil => simp [serverRun]
  | append_singleton reqs op ih =>
      rw [serverRun_snoc, serveLogged_fst]
      have hsplit : (∃ v, Op.put ⟨k, v, 0⟩ ∈ reqs ++ [op])
          ↔ (∃ v, Op.put ⟨k, v, 0⟩ ∈ reqs) ∨ ∃ v, op = .put ⟨k, v, 0⟩ := by
        simp only [List.mem_append, List.mem_singleton]
        constructor
        · rintro ⟨v, hv | hv⟩
          · exact Or.inl ⟨v, hv⟩
          · exact Or.inr ⟨v, hv.symm⟩
        · rintro (⟨v, hv⟩ | ⟨v, hv⟩)
          · exact ⟨v, Or.inl hv⟩
          · exact ⟨v, Or.inr hv.symm⟩
      rw [hsplit, ← ih]
      cases op with
      | get args => simp [KVServer.dispatch]
      | put args =>
          show ((serverRun makeKVServer reqs).1.put args).1.kvStore k ≠ none ↔ _
          -- a Put creates its key under version 0 only, and no Put removes one
          by_cases hk : k = args.key
          · subst hk
            cases hent : (serverRun makeKVServer reqs).1.kvStore args.key with
            | none =>
                by_cases hv : args.version = 0
                · simp only [KVServer.put, hent, hv, if_true, set_kvStore_self]
                  refine ⟨fun _ => Or.inr ⟨args.value, ?_⟩, fun _ => by simp⟩
                  rw [← hv]
                · simp only [KVServer.put, hent, hv, if_false]
                  refine ⟨fun h => absurd rfl h, ?_⟩
                  rintro (h | ⟨v, h⟩)
                  · exact absurd rfl h
                  · exact absurd (congrArg PutArgs.version (Op.put.inj h)) hv
            | some e =>
                by_cases hv : args.version = e.version <;> simp [KVServer.put, hent, hv]
          · have hsame : ((serverRun makeKVServer reqs).1.put args).1.kvStore k
                = (serverRun makeKVServer reqs).1.kvStore k := by
              by_cases hv : args.version = (serverRun makeKVServer reqs).1.currentVersion args.key
              · rw [put_of_current hv, set_kvStore_ne hk]
              · rw [put_of_not_current hv]
            rw [hsame]
            refine ⟨Or.inl, ?_⟩
            rintro (h | ⟨v, h⟩)
            · exact h
            · exact absurd (congrArg PutArgs.key (Op.put.inj h)).symm hk

/-! ## Whole runs -/

/-- The condition of `CreatesFirst`, for one key. -/
def CreatesFirstOn (k : String) (reqs : List Op) : Prop :=
  ∀ pre args post, reqs = pre ++ .put args :: post → args.key = k → args.version ≠ 0 →
    ∃ v, Op.put ⟨k, v, 0⟩ ∈ pre

theorem createsFirst_iff (reqs : List Op) : CreatesFirst reqs ↔ ∀ k, CreatesFirstOn k reqs := by
  constructor
  · rintro h k pre args post hreqs rfl hv
    exact h pre args post hreqs hv
  · intro h pre args post hreqs hv
    exact h args.key pre args post hreqs rfl hv

/-- The condition grows by one request exactly when that request is not an orphan Put on the key. -/
theorem createsFirstOn_snoc (k : String) (reqs : List Op) (op : Op) :
    CreatesFirstOn k (reqs ++ [op])
      ↔ CreatesFirstOn k reqs ∧ (op.key = k → ¬ op.orphan (serverRun makeKVServer reqs).1) := by
  constructor
  · intro h
    refine ⟨fun pre args post hreqs hk hv => ?_, ?_⟩
    · exact h pre args (post ++ [op]) (by simp [hreqs]) hk hv
    · intro hk horph
      cases op with
      | get args => exact horph
      | put args =>
          obtain ⟨v, hmem⟩ := h reqs args [] rfl hk horph.2
          have hpres := (serverRun_present reqs k).mpr ⟨v, hmem⟩
          rw [← hk] at hpres
          exact hpres horph.1
  · rintro ⟨hold, hlast⟩ pre args post hreqs hk hv
    rcases Lib.snoc_eq_append_cons hreqs with ⟨rfl, rfl, -⟩ | ⟨post', rfl, -⟩
    · rw [← serverRun_present]
      intro hnone
      rw [← hk] at hnone
      exact hlast hk ⟨hnone, hv⟩
    · exact hold pre args post' rfl hk hv

/-- One key of a whole run: under the condition its part is accepted and leads to the server's state,
    otherwise it is rejected. -/
theorem check_serverRun (reqs : List Op) (k : String) :
    (CreatesFirstOn k reqs ∧ check kvInit (onKey k (serverRun makeKVServer reqs).2)
        = some (stateOf (serverRun makeKVServer reqs).1 k))
    ∨ (¬ CreatesFirstOn k reqs ∧ check kvInit (onKey k (serverRun makeKVServer reqs).2) = none) := by
  induction reqs using List.reverseRecOn with
  | nil =>
      left
      refine ⟨fun pre args post hreqs => ?_, rfl⟩
      simp at hreqs
  | append_singleton reqs op ih =>
      rw [createsFirstOn_snoc, serverRun_snoc]
      have hon : onKey k ((serverRun makeKVServer reqs).2
            ++ [(serveLogged (serverRun makeKVServer reqs).1 op).2])
          = onKey k (serverRun makeKVServer reqs).2
            ++ onKey k [(serveLogged (serverRun makeKVServer reqs).1 op).2] := List.filter_append _ _
      rw [hon, check_append]
      -- once the model has refused a log it refuses every longer one; until then one operation is to be checked
      rcases ih with ⟨hcond, hchk⟩ | ⟨hcond, hchk⟩
      · rw [hchk, Option.bind_some]
        by_cases hk : op.key = k
        · have hone : onKey k [(serveLogged (serverRun makeKVServer reqs).1 op).2]
              = [(serveLogged (serverRun makeKVServer reqs).1 op).2] := by
            simp [onKey, serveLogged_key, hk]
          rw [hone]
          rcases check_serveLogged (serverRun makeKVServer reqs).1 op with ⟨hno, hok⟩ | ⟨horph, hbad⟩
          · left
            rw [hk] at hok
            exact ⟨⟨hcond, fun _ => hno⟩, hok⟩
          · right
            rw [hk] at hbad
            exact ⟨fun h => h.2 hk horph, hbad⟩
        · have hnil : onKey k [(serveLogged (serverRun makeKVServer reqs).1 op).2] = [] := by
            simp [onKey, serveLogged_key, hk]
          left
          rw [hnil, stateOf_serve_ne _ hk]
          exact ⟨⟨hcond, fun h => absurd h hk⟩, rfl⟩
      · right
        rw [hchk]
        exact ⟨fun h => hcond h.1, rfl⟩

/-- **Where the model and the server agree.** The model accepts a fresh server exactly on the request sequences in
which every Put with a non-zero version comes after a Put with version 0 on the same key; then it also ends, key by
key, in the server's state. -/
theorem model_agrees_iff (reqs : List Op) : ModelAgrees reqs ↔ CreatesFirst reqs := by
  rw [createsFirst_iff]
  constructor
  · rintro ⟨-, hfinal⟩ k
    have hk := hfinal k
    rw [finalState_partition] at hk
    rcases check_serverRun reqs k with ⟨hcond, _⟩ | ⟨_, hbad⟩
    · exact hcond
    · rw [hbad] at hk
      simp at hk
  · intro h
    have hchk : ∀ k, check kvInit (onKey k (serverRun makeKVServer reqs).2)
        = some (stateOf (serverRun makeKVServer reqs).1 k) := by
      intro k
      rcases check_serverRun reqs k with ⟨_, hok⟩ | ⟨hno, _⟩
      · exact hok
      · exact absurd (h k) hno
    refine ⟨?_, fun k => ?_⟩
    · intro part hpart
      obtain ⟨k, -, rfl⟩ := mem_partition.mp hpart
      rw [hchk k]
      rfl
    · rw [finalState_partition, hchk k]

/-- A fresh server answers `Put("k", "v", 5)` with `ErrNoKey`, which `Step` does not accept. -/
theorem model_rejects_ErrNoKey : ¬ ModelAgrees [.put ⟨"k", "v", 5⟩] := by
  rintro ⟨-, hfinal⟩
  have hk := hfinal "k"
  rw [finalState_partition] at hk
  revert hk
  decide

end KvSrv
end DistributedLabs
