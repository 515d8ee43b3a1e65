import DistributedLabs.KvSrv.Network

/-!
# `KvSrv.Append` — clients that append to a list under one key

`OneClientAppend` and `CheckAppends` of `kvtest1/kvtest.go`. Each client reads the list with its version, appends
an entry of its own and puts the list back under that version, so every append overwrites the whole list from a
copy that may be out of date. As in `KvSrv.Lock`, a program point is the Clerk call that comes next or is in
progress, and a step is a client's own or one of the service underneath. Clients that do not run the loop may do
anything except Put to the key.

How `encoding/json` writes a list of entries is left open: any pair of functions that round-trips will do. Go's
`int` is 64 bits wide. The length of a slice is an `int`, and `append` panics where it would not fit; the counters
need no such care, since they never get ahead of the length (`AppenderOk`, in `KvSrv.AppendSafety`).

This module has the code: the loop of one client (`AppendSetup.resume`), many of them over the service (`appendSys`),
and the check that is made of the list in the end (`checkAppends`). That the check passes is shown in two parts. What
the list looks like is an invariant of the runs (`KvSrv.AppendSafety`); that such a list passes is a fact about the
check alone (`KvSrv.AppendCheck`).
-/

namespace DistributedLabs
namespace KvSrv

open Lib

/-! ## The loop -/

/-- An `entry`: the client's number, and which of its appends this is. -/
structure Entry where
  id : Int
  n : Int
deriving DecidableEq, Repr

/-- What a client returns: how many of its Puts returned `OK`, and how many `ErrMaybe`. -/
structure ClntRes where
  nok : Nat
  nmaybe : Nat
deriving DecidableEq, Repr

/-- The longest slice there is. -/
def maxLen : Nat := 2 ^ 63 - 1

/-- A key that holds the empty list at version 1, and the clients that run the loop on it, with their ids. -/
structure AppendSetup where
  key : String
  marshal : List Entry → String
  unmarshal : String → Option (List Entry)
  roundTrip : ∀ es, unmarshal (marshal es) = some es
  me : ClientId → Option Int
  distinct : ∀ {c c' m}, me c = some m → me c' = some m → c = c'
  kv : KVServer
  start : kv.kvStore key = some ⟨marshal [], 1⟩

/-- Where a client is: at the `select`, at its Get, at its Put of `es`, or through. A client that fails takes the
    process with it. -/
inductive AppendPc where
  | select
  | get
  | put (es : List Entry) (ver : Tversion)
  | returned
  | failed
deriving DecidableEq, Repr

/-- The variables of `OneClientAppend`. -/
structure Appender where
  pc : AppendPc := .select
  i : Nat := 0
  nok : Nat := 0
  nmay : Nat := 0
deriving DecidableEq, Repr

/-- What the client returns from where it is. -/
def Appender.result (a : Appender) : ClntRes := ⟨a.nok, a.nmay⟩

/-- The Clerk call of a program point. -/
def AppendSetup.call (S : AppendSetup) : AppendPc → Option Op
  | .get => some (.get ⟨S.key⟩)
  | .put es ver => some (.put ⟨S.key, S.marshal es, ver⟩)
  | _ => none

/-- Where `GetJson` and the `append` after it lead. -/
def AppendSetup.afterGet (S : AppendSetup) (me : Int) (i : Nat) (r : GetReply) : AppendPc :=
  if r.err = .OK then
    match S.unmarshal r.value with
    | some es => if es.length < maxLen then .put (es ++ [⟨me, i⟩]) r.version else .failed
    | none => .failed
  else .failed

/-- Where the code goes with the result of a Clerk call. -/
def AppendSetup.resume (S : AppendSetup) (me : Int) (a : Appender) : Reply → Appender
  | .get r =>
      match a.pc with
      | .get => { a with pc := S.afterGet me a.i r }
      | _ => a
  | .put r =>
      match a.pc with
      | .put _ _ =>
          if r.err = .OK then { pc := .select, i := a.i + 1, nok := a.nok + 1, nmay := a.nmay }
          else if r.err = .ErrMaybe then { pc := .select, i := a.i + 1, nok := a.nok, nmay := a.nmay + 1 }
          else { a with pc := .get }
      | _ => a

/-! ## Many clients -/

/-- The service, and where each client is. -/
structure AppendState where
  net : State
  client : ClientId → Appender

/-- A client's `select` finds nothing on `done`, or it does; or the service takes a step. -/
inductive AppendEvent where
  | iterate (c : ClientId)
  | stop (c : ClientId)
  | rpc (e : Event)
deriving DecidableEq, Repr

/-- Whether a client may begin a Clerk call. -/
def AppendSetup.allows (S : AppendSetup) (client : ClientId → Appender) : Event → Bool
  | .invoke c _ op =>
      match S.me c with
      | some _ => S.call (client c).pc = some op
      | none => match op with
        | .get _ => true
        | .put args => args.key ≠ S.key
  | _ => true

/-- The clients after a step of the service. -/
def AppendSetup.resumeAll (S : AppendSetup) (client : ClientId → Appender) : Event → ClientId → Appender
  | .ret c _ _ r =>
      match S.me c with
      | some me => Function.update client c (S.resume me (client c) r)
      | none => client
  | _ => client

theorem resumeAll_self {S : AppendSetup} {client : ClientId → Appender} {c : ClientId} {me : Int}
    (h : S.me c = some me) (id : Nat) (op : Op) (r : Reply) :
    S.resumeAll client (.ret c id op r) c = S.resume me (client c) r := by
  simp [AppendSetup.resumeAll, h]

/-- Only the return of its own call moves a client on. -/
theorem resumeAll_ne {S : AppendSetup} {client : ClientId → Appender} {e : Event} {c : ClientId}
    (h : ∀ id op r, e ≠ .ret c id op r) : S.resumeAll client e c = client c := by
  cases e with
  | ret c₀ id op r =>
      have hne : c ≠ c₀ := by
        rintro rfl
        exact h id op r rfl
      cases hme : S.me c₀ with
      | none => simp [AppendSetup.resumeAll, hme]
      | some me => simp [AppendSetup.resumeAll, hme, hne]
  | _ => rfl

/-- A client goes to another program point. -/
def AppendState.goto (s : AppendState) (c : ClientId) (pc : AppendPc) : AppendState :=
  ⟨s.net, Function.update s.client c { s.client c with pc := pc }⟩

@[simp] theorem goto_i (s : AppendState) (c c' : ClientId) (pc : AppendPc) :
    ((s.goto c pc).client c').i = (s.client c').i := by
  by_cases h : c' = c
  · subst h
    simp [AppendState.goto]
  · simp [AppendState.goto, h]

/-- A client's own step, or one of the service. -/
inductive AppendStep (S : AppendSetup) : AppendState → AppendEvent → AppendState → Prop where
  | iterate {s c me} : S.me c = some me → (s.client c).pc = .select →
      AppendStep S s (.iterate c) (s.goto c .get)
  | stop {s c me} : S.me c = some me → (s.client c).pc = .select →
      AppendStep S s (.stop c) (s.goto c .returned)
  | rpc {s e net'} : Step s.net e net' → S.allows s.client e = true →
      AppendStep S s (.rpc e) ⟨net', S.resumeAll s.client e⟩

/-- The clients over the service, from the moment at which the key holds the empty list. -/
def appendSys (S : AppendSetup) : LTS AppendState AppendEvent where
  init := ⟨⟨S.kv, fun _ => none, [], 0⟩, fun _ => {}⟩
  step := AppendStep S

/-- The step an event names, if it is possible: the executable form of `AppendStep`. -/
def appendNext (S : AppendSetup) (s : AppendState) : AppendEvent → Option AppendState
  | .iterate c =>
      if (S.me c).isSome ∧ (s.client c).pc = .select then some (s.goto c .get) else none
  | .stop c =>
      if (S.me c).isSome ∧ (s.client c).pc = .select then some (s.goto c .returned) else none
  | .rpc e =>
      if S.allows s.client e = true then (next s.net e).map (fun net' => ⟨net', S.resumeAll s.client e⟩)
      else none

theorem appendSys_computedBy (S : AppendSetup) : (appendSys S).ComputedBy (appendNext S) := by
  intro s e s'
  constructor
  · intro h
    change AppendStep S s e s' at h
    cases h with
    | iterate hme hpc => simp [appendNext, hme, hpc]
    | stop hme hpc => simp [appendNext, hme, hpc]
    | @rpc e net' hs hok =>
        have hnext : next s.net e = some net' := (net_computedBy _ _ _).mp hs
        simp [appendNext, hok, hnext]
  · intro h
    cases e with
    | iterate c =>
        simp only [appendNext, Option.ite_none_right_eq_some, Option.some.injEq] at h
        obtain ⟨⟨hme, hpc⟩, rfl⟩ := h
        obtain ⟨me, hme⟩ := Option.isSome_iff_exists.mp hme
        exact AppendStep.iterate hme hpc
    | stop c =>
        simp only [appendNext, Option.ite_none_right_eq_some, Option.some.injEq] at h
        obtain ⟨⟨hme, hpc⟩, rfl⟩ := h
        obtain ⟨me, hme⟩ := Option.isSome_iff_exists.mp hme
        exact AppendStep.stop hme hpc
    | rpc e =>
        simp only [appendNext, Option.ite_none_right_eq_some, Option.map_eq_some_iff] at h
        obtain ⟨hok, net', hnext, rfl⟩ := h
        exact AppendStep.rpc ((net_computedBy _ _ _).mpr hnext) hok

/-! ## The check -/

/-- What `CheckAppends` can find wrong. Its last loop reads `rs[c]`, which panics for an id that has no result. -/
inductive CheckFailure where
  | oldPut (id expecting got : Int)
  | wrongCount (appends : Nat) (puts : Tversion)
  | skippedTooMany (id skipped : Int) (maybe : Nat)
  | tooManyPuts (id puts : Int) (okOrMaybe : Nat)
  | outOfRange (id : Int)
deriving DecidableEq, Repr

/-- The maps of `CheckAppends`. A key that is not there reads as 0. -/
structure Tally where
  expect : Int → Int := fun _ => 0
  skipped : Int → Int := fun _ => 0

/-- One round of the loop over the entries. -/
def Tally.count (t : Tally) (e : Entry) : Except CheckFailure Tally :=
  if t.expect e.id > e.n then .error (.oldPut e.id (t.expect e.id) e.n)
  else if t.expect e.id = e.n then .ok { t with expect := Function.update t.expect e.id (t.expect e.id + 1) }
  else .ok ⟨Function.update t.expect e.id (e.n + 1),
    Function.update t.skipped e.id (t.skipped e.id + (e.n - t.expect e.id))⟩

/-- One round of the last loop. -/
def Tally.checkClient (t : Tally) (rs : List ClntRes) (id : Int) : Except CheckFailure Unit :=
  match if 0 ≤ id then rs[id.toNat]? else none with
  | none => .error (.outOfRange id)
  | some r =>
      if t.skipped id > r.nmaybe then .error (.skippedTooMany id (t.skipped id) r.nmaybe)
      else if t.expect id > r.nok + r.nmaybe then .error (.tooManyPuts id (t.expect id) (r.nok + r.nmaybe))
      else .ok ()

/-- `CheckAppends`. The last loop ranges over the keys of `expect`: the clients, and whoever has an entry. -/
def checkAppends (es : List Entry) (nclnt : Nat) (rs : List ClntRes) (ver : Tversion) :
    Except CheckFailure Unit := do
  let t ← es.foldlM Tally.count {}
  if Int64.ofNat es.length + 1 ≠ ver.toInt64 then
    throw (.wrongCount es.length ver)
  ((List.range nclnt).map Int.ofNat ++ es.map Entry.id).forM (t.checkClient rs)

end KvSrv
end DistributedLabs
