import Mathlib.Algebra.Group.Nat.Defs
import Mathlib.Logic.Function.Basic

/-!
# `KvSrv.Server` — the versioned key/value server

`kvsrv1/rpc/rpc.go` and `kvsrv1/server.go`: the RPC arguments and replies, the server's map, and its two
handlers. A handler holds the server's mutex from its first line to its return, so one execution is one
atomic step `KVServer → KVServer × reply`, with the reply starting from the zero value the RPC layer
hands it.

`Tversion` is Go's `uint64`: `Version + 1` wraps, and the model keeps that.

The server does not know who calls. All it has against a request that comes twice is the version: a Put is applied
if it carries the current one (`put_ok_iff`), which it then leaves behind. What follows for a Clerk that resends is the
subject of the modules after this one.
-/

namespace DistributedLabs
namespace KvSrv

/-- The error strings of `rpc.go`. `ErrMaybe` is produced by the Clerk only; the last two belong to later
    labs and are produced by nobody here. -/
inductive Err where
  | OK | ErrNoKey | ErrVersion | ErrMaybe | ErrWrongLeader | ErrWrongGroup
deriving DecidableEq, Repr

/-- `Tversion`: unsigned and 64 bits wide. -/
abbrev Tversion := UInt64

/-- The arguments of a Put: the version is the one the caller expects to find. -/
structure PutArgs where
  key : String
  value : String
  version : Tversion
deriving DecidableEq, Repr

/-- The reply to a Put. -/
structure PutReply where
  err : Err
deriving DecidableEq, Repr

/-- The arguments of a Get. -/
structure GetArgs where
  key : String
deriving DecidableEq, Repr

/-- The reply to a Get, empty but for `err` where the key is missing. -/
structure GetReply where
  value : String := ""
  version : Tversion := 0
  err : Err
deriving DecidableEq, Repr

/-- What the map has under a key. -/
structure KVStoreEntry where
  value : String
  version : Tversion
deriving DecidableEq, Repr

/-- The server's state, its Go map read as a partial function. -/
structure KVServer where
  kvStore : String → Option KVStoreEntry

@[ext] theorem KVServer.ext {kv kv' : KVServer} (h : ∀ k, kv.kvStore k = kv'.kvStore k) : kv = kv' := by
  cases kv; cases kv'
  congr 1
  exact funext h

/-- `MakeKVServer`: an empty map. -/
def makeKVServer : KVServer := ⟨fun _ => none⟩

/-- Assignment to one key of the map. -/
def KVServer.set (kv : KVServer) (k : String) (e : KVStoreEntry) : KVServer :=
  ⟨Function.update kv.kvStore k (some e)⟩

@[simp] theorem makeKVServer_kvStore (k : String) : makeKVServer.kvStore k = none := rfl

@[simp] theorem set_kvStore_self (kv : KVServer) (k : String) (e : KVStoreEntry) :
    (kv.set k e).kvStore k = some e := Function.update_self ..

@[simp] theorem set_kvStore_ne {kv : KVServer} {k k' : String} {e : KVStoreEntry} (h : k' ≠ k) :
    (kv.set k e).kvStore k' = kv.kvStore k' := Function.update_of_ne h ..

/-- The `KVServer.Get` handler. -/
def KVServer.get (kv : KVServer) (args : GetArgs) : GetReply :=
  match kv.kvStore args.key with
  | none => { err := .ErrNoKey }
  | some e => { value := e.value, version := e.version, err := .OK }

/-- The `KVServer.Put` handler. -/
def KVServer.put (kv : KVServer) (args : PutArgs) : KVServer × PutReply :=
  match kv.kvStore args.key with
  | none =>
      if args.version = 0 then (kv.set args.key ⟨args.value, 1⟩, ⟨.OK⟩)
      else (kv, ⟨.ErrNoKey⟩)
  | some e =>
      if args.version ≠ e.version then (kv, ⟨.ErrVersion⟩)
      else (kv.set args.key ⟨args.value, e.version + 1⟩, ⟨.OK⟩)

/-! ## One server, two methods -/

/-- A request as the RPC layer carries it: a method name with its arguments. -/
inductive Op where
  | get (args : GetArgs)
  | put (args : PutArgs)
deriving DecidableEq, Repr

/-- The reply of the handler that was run. -/
inductive Reply where
  | get (r : GetReply)
  | put (r : PutReply)
deriving DecidableEq, Repr

/-- Run the handler a request names. -/
def KVServer.dispatch (kv : KVServer) : Op → KVServer × Reply
  | .get args => (kv, .get (kv.get args))
  | .put args => ((kv.put args).1, .put (kv.put args).2)

/-- The key that a request is about. -/
def Op.key : Op → String
  | .get args => args.key
  | .put args => args.key

/-- The version a Put has to carry to be applied: the stored one, or 0 for a missing key. -/
def KVServer.currentVersion (kv : KVServer) (k : String) : Tversion :=
  ((kv.kvStore k).map KVStoreEntry.version).getD 0

/-! ## What the handlers do, once and for all -/

/-- A Put that carries the current version is applied: it installs its value under the next version. -/
theorem put_of_current {kv : KVServer} {args : PutArgs} (h : args.version = kv.currentVersion args.key) :
    kv.put args = (kv.set args.key ⟨args.value, args.version + 1⟩, ⟨.OK⟩) := by
  unfold KVServer.put
  unfold KVServer.currentVersion at h
  cases hk : kv.kvStore args.key with
  | none =>
      have h0 : args.version = 0 := by simpa [hk] using h
      simp [h0]
  | some e =>
      have hv : args.version = e.version := by simpa [hk] using h
      simp [hv]

/-- A Put that carries another version changes nothing, and says whether the key was there. -/
theorem put_of_not_current {kv : KVServer} {args : PutArgs}
    (h : args.version ≠ kv.currentVersion args.key) :
    kv.put args = (kv, ⟨if kv.kvStore args.key = none then .ErrNoKey else .ErrVersion⟩) := by
  unfold KVServer.put
  unfold KVServer.currentVersion at h
  cases hk : kv.kvStore args.key with
  | none =>
      have h0 : args.version ≠ 0 := by simpa [hk] using h
      simp [h0]
  | some e =>
      have hv : args.version ≠ e.version := by simpa [hk] using h
      simp [hv]

/-- `OK` is the verdict exactly when the Put carried the current version. -/
theorem put_ok_iff {kv : KVServer} {args : PutArgs} :
    (kv.put args).2.err = .OK ↔ args.version = kv.currentVersion args.key := by
  by_cases h : args.version = kv.currentVersion args.key
  · simp [put_of_current h, h]
  · rw [put_of_not_current h]
    split <;> simp [h]

/-- A handler run changes the store exactly when it is a Put answered `OK`. -/
theorem put_changes_iff {kv : KVServer} {args : PutArgs} :
    (kv.put args).1 ≠ kv ↔ (kv.put args).2.err = .OK := by
  by_cases h : args.version = kv.currentVersion args.key
  · rw [put_of_current h]
    refine ⟨fun _ => rfl, fun _ heq => ?_⟩
    have hk := congrArg (fun s => KVServer.currentVersion s args.key) heq
    simp only [KVServer.currentVersion, set_kvStore_self, Option.map_some, Option.getD_some] at hk
    have hv : args.version + 1 = args.version := hk.trans h.symm
    simp at hv
  · rw [put_of_not_current h]
    split <;> simp

end KvSrv
end DistributedLabs
