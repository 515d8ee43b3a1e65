import DistributedLabs.KvSrv.Append

/-!
# `KvSrv.OnePut` — clients that put to one key until they succeed

`OnePut`, `OneClientPut` and `CheckPutConcurrent` of `kvtest1/kvtest.go`. A client puts under the version it last
read, reads the key back, and puts again under what it has read until a Put is told `OK` or `ErrMaybe`. It counts
the two apart, and `CheckPutConcurrent` compares the sums with the version of the key. `SpawnClientsAndWait` numbers
the clients from 0, so a client's number is its `me`; whoever has a higher number may do anything except Put to a
key the clients put to.

As in `KvSrv.Append`, how `encoding/json` writes an entry is left open.

The test can fail in several places, each a `Fatalf`: `GetJson` on a missing key or on a value that it cannot read,
`OnePut` on an unexpected verdict and on a wrong value, `CheckPutConcurrent` on a version that does not fit. A client
that has failed is at the program point `failed` and stays there, so that "no client fails" is a statement about states.
`KvSrv.PutConcurrent` shows that, and what the check finds; `KvSrv.ReadBack` looks at the test on the value.
-/

namespace DistributedLabs
namespace KvSrv

open Lib

/-! ## The loop -/

/-- An `EntryV`: who has put it, and under which version. -/
structure EntryV where
  id : Int
  v : Tversion
deriving DecidableEq, Repr

/-- The clients, their keys `ka`, and whether they choose among them. -/
structure PutSetup where
  nclnt : Nat
  ka : List String
  randomkeys : Bool
  marshal : EntryV → String
  unmarshal : String → Option EntryV
  roundTrip : ∀ e, unmarshal (marshal e) = some e

/-- The keys `OneClientPut` may take next. Without keys it panics, so there is none. -/
def PutSetup.picks (S : PutSetup) (k : String) : Bool :=
  if S.randomkeys = true then k ∈ S.ka else S.ka.head? = some k

/-- Where a client is: at the `select`, in `OnePut` at its Put or at the Get after a Put that was told `err`, or
    through. -/
inductive PutPc where
  | select
  | put (k : String) (ver : Tversion)
  | get (k : String) (ver : Tversion) (err : Err)
  | returned
  | failed
deriving DecidableEq, Repr

/-- The variables of `OneClientPut`. A key that is not in `verm` reads as 0, which is what it starts with. -/
structure Putter where
  pc : PutPc := .select
  verm : String → Tversion := fun _ => 0
  res : ClntRes := ⟨0, 0⟩

/-- The Clerk call of a program point. -/
def PutSetup.call (S : PutSetup) (me : ClientId) : PutPc → Option Op
  | .put k ver => some (.put ⟨k, S.marshal ⟨me, ver⟩, ver⟩)
  | .get k _ _ => some (.get ⟨k⟩)
  | _ => none

/-- `GetJson`: the version with the entry, unless the test fails. -/
def PutSetup.getJson (S : PutSetup) (r : GetReply) : Option (Tversion × EntryV) :=
  if r.err = .OK then (S.unmarshal r.value).map (fun e => (r.version, e)) else none

/-- `OneClientPut` after `OnePut` has returned. -/
def Putter.count (a : Putter) (k : String) (ver : Tversion) (ok : Bool) : Putter where
  pc := .select
  verm := Function.update a.verm k ver
  res := if ok = true then ⟨a.res.nok + 1, a.res.nmaybe⟩ else ⟨a.res.nok, a.res.nmaybe + 1⟩

/-- `OnePut` after its Put. -/
def afterPut (k : String) (ver : Tversion) (err : Err) : PutPc :=
  if err = .OK ∨ err = .ErrVersion ∨ err = .ErrMaybe then .get k ver err else .failed

/-- `OnePut` after its Get. -/
def PutSetup.afterGet (S : PutSetup) (me : ClientId) (a : Putter) (k : String) (ver : Tversion) (err : Err)
    (r : GetReply) : Putter :=
  match S.getJson r with
  | none => { a with pc := .failed }
  | some (ver0, e) =>
      if (err = .OK ∧ ver0 = ver + 1) ∧ e.id ≠ me ∧ e.v ≠ ver then { a with pc := .failed }
      else if err = .OK ∨ err = .ErrMaybe then a.count k ver0 (err = .OK)
      else { a with pc := .put k ver0 }

/-- Where the code goes with the result of a Clerk call. -/
def PutSetup.resume (S : PutSetup) (me : ClientId) (a : Putter) : Reply → Putter
  | .put r =>
      match a.pc with
      | .put k ver => { a with pc := afterPut k ver r.err }
      | _ => a
  | .get r =>
      match a.pc with
      | .get k ver err => S.afterGet me a k ver err r
      | _ => a

/-! ## Many clients -/

/-- The service, and where each client is. -/
structure PutState where
  net : State
  client : ClientId → Putter

/-- A client's `select` finds nothing on `done` and it takes a key, or there is something; or the service takes a
    step. -/
inductive PutEvent where
  | iterate (c : ClientId) (k : String)
  | stop (c : ClientId)
  | rpc (e : Event)
deriving DecidableEq, Repr

/-- Whether a client may begin a Clerk call. -/
def PutSetup.allows (S : PutSetup) (client : ClientId → Putter) : Event → Bool
  | .invoke c _ op =>
      if c < S.nclnt then S.call c (client c).pc = some op
      else match op with
        | .get _ => true
        | .put args => !S.picks args.key
  | _ => true

/-- The clients after a step of the service. -/
def PutSetup.resumeAll (S : PutSetup) (client : ClientId → Putter) : Event → ClientId → Putter
  | .ret c _ _ r => if c < S.nclnt then Function.update client c (S.resume c (client c) r) else client
  | _ => client

theorem PutSetup.resumeAll_self {S : PutSetup} {client : ClientId → Putter} {c : ClientId} (h : c < S.nclnt)
    (id : Nat) (op : Op) (r : Reply) : S.resumeAll client (.ret c id op r) c = S.resume c (client c) r := by
  simp [PutSetup.resumeAll, h]

/-- Only the return of its own call moves a client on. -/
theorem PutSetup.resumeAll_ne {S : PutSetup} {client : ClientId → Putter} {e : Event} {c : ClientId}
    (h : ∀ id op r, e ≠ .ret c id op r) : S.resumeAll client e c = client c := by
  cases e with
  | ret c₀ id op r =>
      have hne : c ≠ c₀ := by
        rintro rfl
        exact h id op r rfl
      by_cases hlt : c₀ < S.nclnt <;> simp [PutSetup.resumeAll, hlt, hne]
  | _ => simp [PutSetup.resumeAll]

/-- A client goes to another program point. -/
def PutState.goto (s : PutState) (c : ClientId) (pc : PutPc) : PutState :=
  ⟨s.net, Function.update s.client c { s.client c with pc := pc }⟩

/-- A client's own step, or one of the service. -/
inductive PutStep (S : PutSetup) : PutState → PutEvent → PutState → Prop where
  | iterate {s c k} : c < S.nclnt → (s.client c).pc = .select → S.picks k = true →
      PutStep S s (.iterate c k) (s.goto c (.put k ((s.client c).verm k)))
  | stop {s c} : c < S.nclnt → (s.client c).pc = .select → PutStep S s (.stop c) (s.goto c .returned)
  | rpc {s e net'} : Step s.net e net' → S.allows s.client e = true →
      PutStep S s (.rpc e) ⟨net', S.resumeAll s.client e⟩

/-- The clients over a fresh service. -/
def putSys (S : PutSetup) : LTS PutState PutEvent where
  init := ⟨net.init, fun _ => {}⟩
  step := PutStep S

/-- The step an event names, if it is possible: the executable form of `PutStep`. -/
def putNext (S : PutSetup) (s : PutState) : PutEvent → Option PutState
  | .iterate c k =>
      if c < S.nclnt ∧ (s.client c).pc = .select ∧ S.picks k = true then
        some (s.goto c (.put k ((s.client c).verm k)))
      else none
  | .stop c => if c < S.nclnt ∧ (s.client c).pc = .select then some (s.goto c .returned) else none
  | .rpc e =>
      if S.allows s.client e = true then (next s.net e).map (fun net' => ⟨net', S.resumeAll s.client e⟩)
      else none

theorem putSys_computedBy (S : PutSetup) : (putSys S).ComputedBy (putNext S) := by
  intro s e s'
  constructor
  · intro h
    change PutStep S s e s' at h
    cases h with
    | iterate hc hpc hk => simp [putNext, hc, hpc, hk]
    | stop hc hpc => simp [putNext, hc, hpc]
    | @rpc e net' hs hok =>
        have hnext : next s.net e = some net' := (net_computedBy _ _ _).mp hs
        simp [putNext, hok, hnext]
  · intro h
    cases e with
    | iterate c k =>
        simp only [putNext, Option.ite_none_right_eq_some, Option.some.injEq] at h
        obtain ⟨⟨hc, hpc, hk⟩, rfl⟩ := h
        exact PutStep.iterate hc hpc hk
    | stop c =>
        simp only [putNext, Option.ite_none_right_eq_some, Option.some.injEq] at h
        obtain ⟨⟨hc, hpc⟩, rfl⟩ := h
        exact PutStep.stop hc hpc
    | rpc e =>
        simp only [putNext, Option.ite_none_right_eq_some, Option.map_eq_some_iff] at h
        obtain ⟨hok, net', hnext, rfl⟩ := h
        exact PutStep.rpc ((net_computedBy _ _ _).mpr hnext) hok

/-- The step of the service in an event. -/
def PutEvent.rpc? : PutEvent → Option Event
  | .rpc e => some e
  | _ => none

/-- The run of the service inside a run of the clients. -/
def putRpcs (tr : List PutEvent) : List Event := tr.filterMap PutEvent.rpc?

/-- The clients are clients of the service. -/
def putProjection (S : PutSetup) : Projection (putSys S) net where
  state := PutState.net
  label := PutEvent.rpc?
  init := rfl
  stutter := by
    intro s e s' h he
    change PutStep S s e s' at h
    cases h with
    | iterate _ _ _ => rfl
    | stop _ _ => rfl
    | rpc _ _ => cases he
  step := by
    intro s e s' e' h he
    change PutStep S s e s' at h
    cases h with
    | iterate _ _ _ => cases he
    | stop _ _ => cases he
    | rpc hs _ =>
        obtain rfl := Option.some.inj he
        exact hs

theorem putRpcs_reaches {S : PutSetup} {tr : List PutEvent} {s : PutState} (h : Reaches (putSys S) tr s) :
    Reaches net (putRpcs tr) s.net :=
  (putProjection S).reaches h

/-! ## The check -/

/-- What `CheckPutConcurrent` can find wrong. -/
inductive PutCheckFailure where
  | getJson
  | reliable (server : Tversion) (clnts : ClntRes)
  | unreliable (server : Tversion) (clnts : ClntRes)
deriving DecidableEq, Repr

/-- The sums of the loop in `CheckPutConcurrent`. -/
def ClntRes.add (res r : ClntRes) : ClntRes := ⟨res.nok + r.nok, res.nmaybe + r.nmaybe⟩

/-- `CheckPutConcurrent` with the reply of its Get; the sums are left in `res`. -/
def PutSetup.checkPutConcurrent (S : PutSetup) (r : GetReply) (rs : List ClntRes) (res : ClntRes)
    (reliable : Bool) : Except PutCheckFailure ClntRes :=
  match S.getJson r with
  | none => .error .getJson
  | some (ver0, _) =>
      let res := rs.foldl ClntRes.add res
      if reliable = true then
        if ver0 ≠ UInt64.ofNat res.nok then .error (.reliable ver0 res) else .ok res
      else if ver0 > UInt64.ofNat (res.nok + res.nmaybe) then .error (.unreliable ver0 res)
      else .ok res

/-- The clients `SpawnClientsAndWait` starts. -/
def PutState.clients (S : PutSetup) (s : PutState) : List Putter := (List.range S.nclnt).map s.client

/-- What it returns. -/
def PutState.results (S : PutSetup) (s : PutState) : List ClntRes := (s.clients S).map Putter.res

end KvSrv
end DistributedLabs
