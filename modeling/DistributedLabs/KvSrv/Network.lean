import DistributedLabs.Lib.Transition
import DistributedLabs.KvSrv.Server

/-!
# `KvSrv.Network` — Clerks, the unreliable network, and one server

The system that the results about the key/value service are about: any number of clients, each inside at most
one `Clerk.Get` or `Clerk.Put` at a time (`kvsrv1/client.go`), one server, and the network of
`labrpc.go` between them. An RPC attempt goes through these moments:

* the Clerk sends it (`sent`), the handler runs (`serve`), the reply comes back and the Clerk returns
  (`ret`);
* or `Call` returns false and the Clerk sends the next attempt, with `retried` set. That happens when the
  request was dropped (`drop`), when the reply was dropped (`lose`), or when the end was disabled or the
  server removed while the handler had yet to run (`abandon`): then the request is still out there and may
  run at any later time (`serveLate`), with nobody left to hear its reply.

`Call` decodes the reply into the Clerk's struct only when it returns true, so the struct the Clerk reads
holds the reply of that one attempt and nothing else.

A Clerk has no state of its own between two calls, so a client that uses one Clerk for several purposes is
several clients here. The numbers of the calls are bookkeeping: they let a trace say which attempt belongs
to which call.

## What is not assumed

Nothing is fair: a call may be dropped for ever, so results about returns are about calls that return. That
these few moments are all that the simulated network can do to a request is shown in `KvSrv.OnLabRpc`, where
this system follows every run of `labrpc.go`.

`step_store` and `step_applied` say once what a step can do to the store; the invariants of the later modules
are derived from them and from what a step does to the calls (`KvSrv.Accounting`).
-/

namespace DistributedLabs
namespace KvSrv

open Lib

/-- A client, that is a goroutine with a Clerk. -/
abbrev ClientId := Nat

/-- How far the current RPC attempt of a call has come. -/
inductive Attempt where
  | sent
  | served (r : Reply)
deriving DecidableEq, Repr

/-- A call of `Clerk.Get` or `Clerk.Put` in progress: the loop's variables. `Clerk.Get` has no `retried`
    and its result does not look at it. -/
structure Call where
  id : Nat
  op : Op
  retried : Bool
  attempt : Attempt
deriving DecidableEq, Repr

/-- The Clerk's loop after a `Call` that returned false: mark the retry and send again. -/
def Call.resend (call : Call) : Call := { call with retried := true, attempt := .sent }

/-- The end of `Clerk.Put`: what it returns for the reply of an attempt that came back. -/
def putResult (retried : Bool) (reply : PutReply) : Err :=
  if reply.err = .ErrVersion ∧ retried = true then .ErrMaybe else reply.err

/-- What a Clerk call returns for the reply of an attempt that came back. -/
def clerkResult (retried : Bool) : Reply → Reply
  | .get r => .get r
  | .put r => .put ⟨putResult retried r⟩

/-- The server, the calls in progress, the requests that are out late, and the number of the next call. -/
structure State where
  kv : KVServer
  calls : ClientId → Option Call
  late : List (Nat × Op)
  nextId : Nat

/-- What happens to a call and to its requests. -/
inductive Event where
  | invoke (c : ClientId) (id : Nat) (op : Op)
  | serve (c : ClientId) (id : Nat) (op : Op) (r : Reply)
  | drop (c : ClientId)
  | lose (c : ClientId)
  | abandon (c : ClientId)
  | serveLate (id : Nat) (op : Op) (r : Reply)
  | ret (c : ClientId) (id : Nat) (op : Op) (r : Reply)
deriving DecidableEq, Repr

/-- The call of client `c` is `call` now. -/
def State.setCall (s : State) (c : ClientId) (call : Option Call) : State :=
  { s with calls := Function.update s.calls c call }

@[simp] theorem setCall_kv (s : State) (c : ClientId) (x : Option Call) : (s.setCall c x).kv = s.kv := rfl
@[simp] theorem setCall_late (s : State) (c : ClientId) (x : Option Call) :
    (s.setCall c x).late = s.late := rfl
@[simp] theorem setCall_nextId (s : State) (c : ClientId) (x : Option Call) :
    (s.setCall c x).nextId = s.nextId := rfl
@[simp] theorem setCall_calls_self (s : State) (c : ClientId) (x : Option Call) :
    (s.setCall c x).calls c = x := Function.update_self ..
@[simp] theorem setCall_calls_ne (s : State) {c c' : ClientId} (x : Option Call) (h : c' ≠ c) :
    (s.setCall c x).calls c' = s.calls c' := Function.update_of_ne h ..

/-- One step of the system. -/
inductive Step : State → Event → State → Prop where
  | invoke {s c op} : s.calls c = none →
      Step s (.invoke c s.nextId op)
        { s.setCall c (some ⟨s.nextId, op, false, .sent⟩) with nextId := s.nextId + 1 }
  | serve {s c call} : s.calls c = some call → call.attempt = .sent →
      Step s (.serve c call.id call.op (s.kv.dispatch call.op).2)
        { s.setCall c (some { call with attempt := .served (s.kv.dispatch call.op).2 }) with
          kv := (s.kv.dispatch call.op).1 }
  | drop {s c call} : s.calls c = some call → call.attempt = .sent →
      Step s (.drop c) (s.setCall c (some call.resend))
  | lose {s c call r} : s.calls c = some call → call.attempt = .served r →
      Step s (.lose c) (s.setCall c (some call.resend))
  | abandon {s c call} : s.calls c = some call → call.attempt = .sent →
      Step s (.abandon c)
        { s.setCall c (some call.resend) with late := (call.id, call.op) :: s.late }
  | serveLate {s id op} : (id, op) ∈ s.late →
      Step s (.serveLate id op (s.kv.dispatch op).2)
        { s with kv := (s.kv.dispatch op).1, late := s.late.erase (id, op) }
  | ret {s c call r} : s.calls c = some call → call.attempt = .served r →
      Step s (.ret c call.id call.op (clerkResult call.retried r)) (s.setCall c none)

/-- The key/value service from a fresh server, with nobody inside a call. -/
def net : LTS State Event where
  init := ⟨makeKVServer, fun _ => none, [], 0⟩
  step := Step

/-- The step an event names, if it is possible: the executable form of `Step`. -/
def next (s : State) : Event → Option State
  | .invoke c id op =>
      if s.calls c = none ∧ id = s.nextId then
        some { s.setCall c (some ⟨s.nextId, op, false, .sent⟩) with nextId := s.nextId + 1 }
      else none
  | .serve c id op r => (s.calls c).bind fun call =>
      if call.attempt = .sent ∧ id = call.id ∧ op = call.op ∧ r = (s.kv.dispatch call.op).2 then
        some { s.setCall c (some { call with attempt := .served (s.kv.dispatch call.op).2 }) with
          kv := (s.kv.dispatch call.op).1 }
      else none
  | .drop c => (s.calls c).bind fun call =>
      if call.attempt = .sent then some (s.setCall c (some call.resend)) else none
  | .lose c => (s.calls c).bind fun call =>
      match call.attempt with
      | .sent => none
      | .served _ => some (s.setCall c (some call.resend))
  | .abandon c => (s.calls c).bind fun call =>
      if call.attempt = .sent then
        some { s.setCall c (some call.resend) with late := (call.id, call.op) :: s.late }
      else none
  | .serveLate id op r =>
      if (id, op) ∈ s.late ∧ r = (s.kv.dispatch op).2 then
        some { s with kv := (s.kv.dispatch op).1, late := s.late.erase (id, op) }
      else none
  | .ret c id op r => (s.calls c).bind fun call =>
      match call.attempt with
      | .sent => none
      | .served r₀ =>
          if id = call.id ∧ op = call.op ∧ r = clerkResult call.retried r₀ then some (s.setCall c none)
          else none

theorem net_computedBy : net.ComputedBy next := by
  intro s e s'
  constructor
  · intro h
    change Step s e s' at h
    cases h with
    | invoke hc => simp [next, hc]
    | serve hc hatt => simp [next, hc, hatt]
    | drop hc hatt => simp [next, hc, hatt]
    | lose hc hatt => simp [next, hc, hatt]
    | abandon hc hatt => simp [next, hc, hatt]
    | serveLate hmem => simp [next, hmem]
    | ret hc hatt => simp [next, hc, hatt]
  · intro h
    cases e with
    | invoke c id op =>
        simp only [next, Option.ite_none_right_eq_some, Option.some.injEq] at h
        obtain ⟨⟨hc, rfl⟩, rfl⟩ := h
        exact Step.invoke hc
    | serve c id op r =>
        obtain ⟨call, hc, h⟩ := Option.bind_eq_some_iff.mp h
        simp only [Option.ite_none_right_eq_some, Option.some.injEq] at h
        obtain ⟨⟨hatt, rfl, rfl, rfl⟩, rfl⟩ := h
        exact Step.serve hc hatt
    | drop c =>
        obtain ⟨call, hc, h⟩ := Option.bind_eq_some_iff.mp h
        simp only [Option.ite_none_right_eq_some, Option.some.injEq] at h
        obtain ⟨hatt, rfl⟩ := h
        exact Step.drop hc hatt
    | lose c =>
        obtain ⟨call, hc, h⟩ := Option.bind_eq_some_iff.mp h
        cases hatt : call.attempt with
        | sent => simp [hatt] at h
        | served r₀ =>
            obtain rfl : s.setCall c (some call.resend) = s' := by simpa [hatt] using h
            exact Step.lose hc hatt
    | abandon c =>
        obtain ⟨call, hc, h⟩ := Option.bind_eq_some_iff.mp h
        simp only [Option.ite_none_right_eq_some, Option.some.injEq] at h
        obtain ⟨hatt, rfl⟩ := h
        exact Step.abandon hc hatt
    | serveLate id op r =>
        simp only [next, Option.ite_none_right_eq_some, Option.some.injEq] at h
        obtain ⟨⟨hmem, rfl⟩, rfl⟩ := h
        exact Step.serveLate hmem
    | ret c id op r =>
        obtain ⟨call, hc, h⟩ := Option.bind_eq_some_iff.mp h
        cases hatt : call.attempt with
        | sent => simp [hatt] at h
        | served r₀ =>
            simp only [hatt, Option.ite_none_right_eq_some, Option.some.injEq] at h
            obtain ⟨⟨rfl, rfl, rfl⟩, rfl⟩ := h
            exact Step.ret hc hatt

/-! ## Reading a trace -/

/-- The Put a handler run has applied, if it has: a Put answered `OK`. -/
def appliedPut : Op → Reply → Option PutArgs
  | .put args, .put ⟨.OK⟩ => some args
  | _, _ => none

/-- The Put an event has applied, with the call it belongs to. -/
def Event.applied : Event → Option (Nat × PutArgs)
  | .serve _ id op r => (appliedPut op r).map (fun args => (id, args))
  | .serveLate id op r => (appliedPut op r).map (fun args => (id, args))
  | _ => none

/-- The Puts applied in a run, oldest first. -/
def applied (tr : List Event) : List (Nat × PutArgs) := tr.filterMap Event.applied

/-- The Puts applied on one key, oldest first. -/
def appliedOn (tr : List Event) (k : String) : List (Nat × PutArgs) :=
  (applied tr).filter (fun p => p.2.key = k)

/-- The number of RPC attempts of one call that changed the store. -/
def timesApplied (tr : List Event) (id : Nat) : Nat := (applied tr).countP (fun p => p.1 = id)

theorem applied_snoc (tr : List Event) (e : Event) :
    applied (tr ++ [e]) = applied tr ++ e.applied.toList :=
  filterMap_snoc Event.applied tr e

theorem applied_append (tr tr' : List Event) : applied (tr ++ tr') = applied tr ++ applied tr' :=
  List.filterMap_append

theorem appliedOn_snoc_none {tr : List Event} {e : Event} (h : e.applied = none) (k : String) :
    appliedOn (tr ++ [e]) k = appliedOn tr k := by
  simp [appliedOn, applied_snoc, h]

theorem appliedOn_snoc_self {tr : List Event} {e : Event} {id : Nat} {args : PutArgs}
    (h : e.applied = some (id, args)) :
    appliedOn (tr ++ [e]) args.key = appliedOn tr args.key ++ [(id, args)] := by
  simp [appliedOn, applied_snoc, h]

theorem appliedOn_snoc_ne {tr : List Event} {e : Event} {id : Nat} {args : PutArgs} {k : String}
    (h : e.applied = some (id, args)) (hk : k ≠ args.key) :
    appliedOn (tr ++ [e]) k = appliedOn tr k := by
  simp [appliedOn, applied_snoc, h, Ne.symm hk]

/-- Puts on a key are only ever added. -/
theorem appliedOn_length_le (tr tr' : List Event) (k : String) :
    (appliedOn tr k).length ≤ (appliedOn (tr ++ tr') k).length := by
  simp [appliedOn, applied_append]

theorem timesApplied_snoc_none {tr : List Event} {e : Event} (h : e.applied = none) (id : Nat) :
    timesApplied (tr ++ [e]) id = timesApplied tr id := by
  simp [timesApplied, applied_snoc, h]

theorem timesApplied_snoc_self {tr : List Event} {e : Event} {id : Nat} {args : PutArgs}
    (h : e.applied = some (id, args)) : timesApplied (tr ++ [e]) id = timesApplied tr id + 1 := by
  simp [timesApplied, applied_snoc, h]

theorem timesApplied_snoc_ne {tr : List Event} {e : Event} {id id' : Nat} {args : PutArgs}
    (h : e.applied = some (id, args)) (hne : id' ≠ id) :
    timesApplied (tr ++ [e]) id' = timesApplied tr id' := by
  simp [timesApplied, applied_snoc, h, Ne.symm hne]

theorem timesApplied_append (tr tr' : List Event) (id : Nat) :
    timesApplied (tr ++ tr') id = timesApplied tr id + timesApplied tr' id := by
  unfold timesApplied
  rw [applied_append, List.countP_append]

theorem timesApplied_mono (tr tr' : List Event) (id : Nat) :
    timesApplied tr id ≤ timesApplied (tr ++ tr') id := by
  rw [timesApplied_append]
  exact Nat.le_add_right _ _

theorem appliedPut_eq_none {op : Op} {r : Reply} (h : r ≠ .put ⟨.OK⟩) : appliedPut op r = none := by
  cases op with
  | get args => rfl
  | put args =>
      cases r with
      | get r => rfl
      | put r =>
          obtain ⟨err⟩ := r
          cases err with
          | OK => exact absurd rfl h
          | _ => rfl

/-! ## What one step can do to the store -/

/-- A handler run either applies a Put that carries the current version, or leaves the store alone. -/
theorem dispatch_cases (kv : KVServer) (op : Op) :
    (∃ args, op = .put args ∧ args.version = kv.currentVersion args.key
      ∧ kv.dispatch op = (kv.set args.key ⟨args.value, args.version + 1⟩, .put ⟨.OK⟩))
    ∨ ((kv.dispatch op).1 = kv ∧ (kv.dispatch op).2 ≠ .put ⟨.OK⟩) := by
  cases op with
  | get args => exact Or.inr ⟨rfl, by simp [KVServer.dispatch]⟩
  | put args =>
      by_cases h : args.version = kv.currentVersion args.key
      · exact Or.inl ⟨args, rfl, h, by simp [KVServer.dispatch, put_of_current h]⟩
      · refine Or.inr ⟨by simp [KVServer.dispatch, put_of_not_current h], ?_⟩
        simp only [KVServer.dispatch, put_of_not_current h]
        split <;> simp

/-- The store moves exactly with the trace's applied Puts, and each of them carried the current
    version. -/
theorem step_store {s s' : State} {e : Event} (h : Step s e s') :
    (∃ id args, e.applied = some (id, args) ∧ args.version = s.kv.currentVersion args.key
      ∧ s'.kv = s.kv.set args.key ⟨args.value, args.version + 1⟩)
    ∨ (e.applied = none ∧ s'.kv = s.kv) := by
  cases h with
  | invoke _ => exact Or.inr ⟨rfl, rfl⟩
  | @serve c call hc hatt =>
      rcases dispatch_cases s.kv call.op with ⟨args, hop, hv, hd⟩ | ⟨hkv, hr⟩
      · refine Or.inl ⟨call.id, args, ?_, hv, ?_⟩
        · rw [hop] at hd ⊢; simp [hd, Event.applied, appliedPut]
        · simp [hd]
      · exact Or.inr ⟨by simp [Event.applied, appliedPut_eq_none hr], hkv⟩
  | drop _ _ => exact Or.inr ⟨rfl, rfl⟩
  | lose _ _ => exact Or.inr ⟨rfl, rfl⟩
  | abandon _ _ => exact Or.inr ⟨rfl, rfl⟩
  | @serveLate id op hmem =>
      rcases dispatch_cases s.kv op with ⟨args, hop, hv, hd⟩ | ⟨hkv, hr⟩
      · refine Or.inl ⟨id, args, ?_, hv, ?_⟩
        · subst hop; simp [hd, Event.applied, appliedPut]
        · simp [hd]
      · exact Or.inr ⟨by simp [Event.applied, appliedPut_eq_none hr], hkv⟩
  | ret _ _ => exact Or.inr ⟨rfl, rfl⟩

/-- An applied Put was the current attempt of a call in progress, or a request out late. -/
theorem step_applied {s s' : State} {e : Event} {id : Nat} {args : PutArgs} (h : Step s e s')
    (ha : e.applied = some (id, args)) :
    (∃ c call, s.calls c = some call ∧ call.attempt = .sent ∧ call.id = id ∧ call.op = .put args
      ∧ e = .serve c id (.put args) (.put ⟨.OK⟩)
      ∧ s'.calls = Function.update s.calls c (some { call with attempt := .served (.put ⟨.OK⟩) })
      ∧ s'.late = s.late)
    ∨ ((id, Op.put args) ∈ s.late ∧ e = .serveLate id (.put args) (.put ⟨.OK⟩)
      ∧ s'.calls = s.calls ∧ s'.late = s.late.erase (id, .put args)) := by
  cases h with
  | invoke _ => simp [Event.applied] at ha
  | @serve c call hc hatt =>
      rcases dispatch_cases s.kv call.op with ⟨args', hop, hv, hd⟩ | ⟨hkv, hr⟩
      · have hq : some (call.id, args') = some (id, args) := by
          rw [← ha, hop]; rw [hop] at hd; simp [hd, Event.applied, appliedPut]
        obtain ⟨rfl, rfl⟩ : call.id = id ∧ args' = args := by simpa using hq
        rw [hop] at hd
        exact Or.inl ⟨c, call, hc, hatt, rfl, hop, by simp [hop, hd],
          by simp [hop, hd, State.setCall], rfl⟩
      · simp [Event.applied, appliedPut_eq_none hr] at ha
  | drop _ _ => simp [Event.applied] at ha
  | lose _ _ => simp [Event.applied] at ha
  | abandon _ _ => simp [Event.applied] at ha
  | @serveLate id' op hmem =>
      rcases dispatch_cases s.kv op with ⟨args', hop, hv, hd⟩ | ⟨hkv, hr⟩
      · subst hop
        have hq : some (id', args') = some (id, args) := by rw [← ha]; simp [hd, Event.applied, appliedPut]
        obtain ⟨rfl, rfl⟩ : id' = id ∧ args' = args := by simpa using hq
        exact Or.inr ⟨hmem, by simp [hd], rfl, rfl⟩
      · simp [Event.applied, appliedPut_eq_none hr] at ha
  | ret _ _ => simp [Event.applied] at ha

/-! ## One client among many -/

/-- The client that an event is a move of; a request that runs late is nobody's move. -/
def Event.client : Event → Option ClientId
  | .invoke c _ _ => some c
  | .serve c _ _ _ => some c
  | .drop c => some c
  | .lose c => some c
  | .abandon c => some c
  | .serveLate _ _ _ => none
  | .ret c _ _ _ => some c

/-- A client's call is its own business. -/
theorem step_other {s s' : State} {e : Event} {c : ClientId} (h : Step s e s') (hc : e.client ≠ some c) :
    s'.calls c = s.calls c := by
  have hset : ∀ {c₀ : ClientId} {x : Option Call}, some c₀ ≠ some c → Function.update s.calls c₀ x c = s.calls c :=
    fun hne => Function.update_of_ne (fun heq => hne (congrArg some heq.symm)) ..
  cases h with
  | invoke _ => exact hset hc
  | serve _ _ => exact hset hc
  | drop _ _ => exact hset hc
  | lose _ _ => exact hset hc
  | abandon _ _ => exact hset hc
  | serveLate _ => rfl
  | ret _ _ => exact hset hc

/-- A call that nothing disturbs: it is sent, served and returned with the server's answer. -/
theorem call_run {s : State} {c : ClientId} (hc : s.calls c = none) (op : Op) :
    Run net s [.invoke c s.nextId op, .serve c s.nextId op (s.kv.dispatch op).2,
        .ret c s.nextId op (s.kv.dispatch op).2]
      { s with kv := (s.kv.dispatch op).1, nextId := s.nextId + 1 } := by
  have hres : clerkResult false (s.kv.dispatch op).2 = (s.kv.dispatch op).2 := by
    cases op <;> simp [KVServer.dispatch, clerkResult, putResult]
  have hcalls : Function.update s.calls c none = s.calls := by
    rw [Function.update_eq_self_iff, hc]
  refine run_of_exec net_computedBy ?_
  simp [exec, next, State.setCall, hc, hres, hcalls]

/-- The version of a key that has just been written. -/
theorem currentVersion_set {kv : KVServer} {k : String} {e : KVStoreEntry} :
    (kv.set k e).currentVersion k = e.version := by
  simp [KVServer.currentVersion]

end KvSrv
end DistributedLabs
