import DistributedLabs.Lib.Transition

/-!
# `LabRpc.Network` — the simulated network

`labrpc/labrpc.go`: any number of `ClientEnd.Call`s, each with its own run of `processReq`, and a network whose
tables are changed meanwhile. What one request goes through is `ReqStep`: it reads the tables and changes nothing
but itself. A step of the system is a step of one request or a change of the tables.

The code reads the tables under a lock, in `readEndnameInfo` and in `isServerDead`; each is one step. How long
anything sleeps is left out: a sleep ends at some later moment, whichever, and a timer fires at some later moment.
A random choice is a free choice, where the code makes it. A reply channel is unbuffered, so that a send on it
(`reply`, or `fire` in the function of a timer) is one step of the sender and of the `Call` that waits.

A `*Server` is an instance, of which only the identity matters here. What a handler does with a request and what
it replies is left open, and it may never return. Names are of any type. The counters of requests and bytes are
left out, and so is `callf`, by which a daemon bypasses the network.

## The life of a request

`Call` is `sending` until the network takes the request (`accept`) or has been cleaned up (`refuse`). `processReq` reads
the tables; with no server to ask it sets a timer that answers `noReply`, otherwise it may drop the request or start the
handler and wait. It leaves the loop with the handler's reply or because the server is dead, looks once more, and drops,
delays or sends the reply. What all this comes to for the caller is in `LabRpc.Semantics`.
-/

namespace DistributedLabs
namespace LabRpc

open Lib

abbrev Bytes := List UInt8

/-- A `*Server`. -/
abbrev ServerId := Nat

/-- A call of `ClientEnd.Call`, and the request it makes. -/
abbrev ReqId := Nat

/-- A `replyMsg`. -/
structure ReplyMsg where
  ok : Bool
  reply : Bytes
deriving DecidableEq, Repr

/-- What is sent when there is no reply: `replyMsg{false, nil}`. -/
def noReply : ReplyMsg := ⟨false, []⟩

/-! ## The tables -/

/-- The tables of a `Network`; a name that a Go map does not have, or has as `nil`, is `none`. -/
structure Tables (Name : Type) where
  reliable : Bool
  longReordering : Bool
  enabled : Name → Bool
  connections : Name → Option Name
  servers : Name → Option ServerId
  done : Bool

/-- What `processReq` takes from `readEndnameInfo`, when there is a server to ask. -/
structure Info (Name : Type) where
  servername : Name
  server : ServerId
  reliable : Bool
  longReordering : Bool
deriving DecidableEq, Repr

/-- `readEndnameInfo`, and the test `processReq` makes of what it returns. -/
def Tables.readEndnameInfo {Name : Type} (rn : Tables Name) (endname : Name) : Option (Info Name) :=
  if rn.enabled endname then
    (rn.connections endname).bind (fun servername =>
      (rn.servers servername).map (fun server =>
        ⟨servername, server, rn.reliable, rn.longReordering⟩))
  else none

def Tables.isServerDead {Name : Type} (rn : Tables Name) (endname servername : Name) (server : ServerId) :
    Bool :=
  decide (rn.enabled endname = false ∨ rn.servers servername ≠ some server)

theorem readEndnameInfo_some {Name : Type} {rn : Tables Name} {endname : Name} {info : Info Name}
    (h : rn.readEndnameInfo endname = some info) :
    rn.enabled endname = true ∧ rn.connections endname = some info.servername ∧
      rn.servers info.servername = some info.server := by
  rw [Tables.readEndnameInfo] at h
  split at h
  case isTrue hen =>
      obtain ⟨servername, hconn, hmap⟩ := Option.bind_eq_some_iff.mp h
      obtain ⟨server, hserver, rfl⟩ := Option.map_eq_some_iff.mp hmap
      exact ⟨hen, hconn, hserver⟩
  case isFalse => cases h

/-- A server that is not dead is registered, under an end that is enabled. -/
theorem isServerDead_false {Name : Type} {rn : Tables Name} {endname servername : Name} {server : ServerId}
    (h : rn.isServerDead endname servername server = false) :
    rn.enabled endname = true ∧ rn.servers servername = some server := by
  have hno := not_or.mp (of_decide_eq_false h)
  exact ⟨Bool.of_not_eq_false hno.1, Decidable.not_not.mp hno.2⟩

/-- What is done to the tables. -/
inductive TableAction (Name : Type) where
  | addServer (servername : Name) (rs : ServerId)
  | deleteServer (servername : Name)
  | connect (endname : Name) (servername : Option Name)
  | enable (endname : Name) (enabled : Bool)
  | setReliable (yes : Bool)
  | setLongReordering (yes : Bool)
  | cleanup
deriving DecidableEq, Repr

/-- `AddServer`, `DeleteServer`, `Connect`, `Enable`, `Reliable`, `LongReordering` and `Cleanup`. -/
def Tables.apply {Name : Type} [DecidableEq Name] (rn : Tables Name) : TableAction Name → Tables Name
  | .addServer servername rs => { rn with servers := Function.update rn.servers servername (some rs) }
  | .deleteServer servername => { rn with servers := Function.update rn.servers servername none }
  | .connect endname servername =>
      { rn with connections := Function.update rn.connections endname servername }
  | .enable endname enabled => { rn with enabled := Function.update rn.enabled endname enabled }
  | .setReliable yes => { rn with reliable := yes }
  | .setLongReordering yes => { rn with longReordering := yes }
  | .cleanup => { rn with done := true }

/-! ## One request -/

/-- Where a `Call` is. -/
inductive CallPc where
  | sending
  | waiting
  | returned (rep : ReplyMsg)
deriving DecidableEq, Repr

/-- Where `processReq` is. -/
inductive Proc (Name : Type) where
  | idle
  | start
  | admitted (info : Info Name)
  -- in the loop that waits for the handler, and out of it with the handler's reply or without
  | waiting (info : Info Name)
  | replied (info : Info Name) (reply : ReplyMsg)
  | gaveUp (info : Info Name)
  -- the last `isServerDead` said no
  | alive (info : Info Name) (reply : ReplyMsg)
  | sending (rep : ReplyMsg)
  | ended
deriving DecidableEq, Repr

/-- `processReq` is in the loop that waits for the handler. -/
def Proc.isWaiting {Name : Type} : Proc Name → Bool
  | .waiting _ => true
  | _ => false

/-- Where the goroutine is that runs the handler: `taken` when its reply has been received from it. -/
inductive Handler where
  | absent
  | spawned (server : ServerId)
  | running (server : ServerId)
  | returned (server : ServerId) (r : ReplyMsg)
  | taken (server : ServerId) (r : ReplyMsg)
deriving DecidableEq, Repr

/-- A `Call` with its request. `timer` is what the timer of `processReq` will send, if there is one to fire. -/
structure Req (Name : Type) where
  endname : Name
  svcMeth : String
  args : Bytes
  call : CallPc := .sending
  proc : Proc Name := .idle
  timer : Option ReplyMsg := none
  handler : Handler := .absent
deriving DecidableEq, Repr

/-- The steps of a request. -/
inductive ReqAction where
  | accept
  | refuse
  | read
  | dropRequest
  | spawn
  | dispatch (server : ServerId) (svcMeth : String) (args : Bytes)
  | handlerReturns (r : ReplyMsg)
  | take
  | poll
  | drain
  | check
  | dropReply
  | delayReply
  | directReply
  | reply (rep : ReplyMsg)
  | fire (rep : ReplyMsg)
deriving DecidableEq, Repr

/-- A step of one request. -/
inductive ReqStep {Name : Type} (rn : Tables Name) : Req Name → ReqAction → Req Name → Prop where
  -- the rest of `Call`, whose other end is the goroutine of `MakeNetwork`
  | accept {q} : q.call = .sending → ReqStep rn q .accept { q with call := .waiting, proc := .start }
  | refuse {q} : q.call = .sending → rn.done = true →
      ReqStep rn q .refuse { q with call := .returned noReply }
  -- `processReq`, up to the loop
  | read {q info} : q.proc = .start → rn.readEndnameInfo q.endname = some info →
      ReqStep rn q .read { q with proc := .admitted info }
  | readNone {q} : q.proc = .start → rn.readEndnameInfo q.endname = none →
      ReqStep rn q .read { q with proc := .ended, timer := some noReply }
  | dropRequest {q info} : q.proc = .admitted info → info.reliable = false →
      ReqStep rn q .dropRequest { q with proc := .sending noReply }
  | spawn {q info} : q.proc = .admitted info →
      ReqStep rn q .spawn { q with proc := .waiting info, handler := .spawned info.server }
  -- the goroutine that runs the handler
  | dispatch {q server} : q.handler = .spawned server →
      ReqStep rn q (.dispatch server q.svcMeth q.args) { q with handler := .running server }
  | handlerReturns {q server r} : q.handler = .running server →
      ReqStep rn q (.handlerReturns r) { q with handler := .returned server r }
  -- the loop
  | take {q info server r} : q.proc = .waiting info → q.handler = .returned server r →
      ReqStep rn q .take { q with proc := .replied info r, handler := .taken server r }
  | pollDead {q info} : q.proc = .waiting info →
      rn.isServerDead q.endname info.servername info.server = true →
      ReqStep rn q .poll { q with proc := .gaveUp info }
  | poll {q info} : q.proc = .waiting info →
      rn.isServerDead q.endname info.servername info.server = false → ReqStep rn q .poll q
  -- the goroutine started when the loop is left without a reply: nobody else receives from the handler's
  | drain {q server r} : q.handler = .returned server r → q.proc.isWaiting = false →
      ReqStep rn q .drain { q with handler := .taken server r }
  -- after the loop
  | checkDead {q info r} : q.proc = .replied info r →
      rn.isServerDead q.endname info.servername info.server = true →
      ReqStep rn q .check { q with proc := .sending noReply }
  | check {q info r} : q.proc = .replied info r →
      rn.isServerDead q.endname info.servername info.server = false →
      ReqStep rn q .check { q with proc := .alive info r }
  -- without a reply it does not matter what `isServerDead` says now
  | checkGaveUp {q info} : q.proc = .gaveUp info →
      ReqStep rn q .check { q with proc := .sending noReply }
  | dropReply {q info r} : q.proc = .alive info r → info.reliable = false →
      ReqStep rn q .dropReply { q with proc := .sending noReply }
  | delayReply {q info r} : q.proc = .alive info r → info.longReordering = true →
      ReqStep rn q .delayReply { q with proc := .ended, timer := some r }
  | directReply {q info r} : q.proc = .alive info r →
      ReqStep rn q .directReply { q with proc := .sending r }
  | reply {q rep} : q.proc = .sending rep → q.call = .waiting →
      ReqStep rn q (.reply rep) { q with proc := .ended, call := .returned rep }
  | fire {q rep} : q.timer = some rep → q.call = .waiting →
      ReqStep rn q (.fire rep) { q with timer := none, call := .returned rep }

/-! ## The system -/

/-- The tables, and the requests that have been made. -/
structure State (Name : Type) where
  rn : Tables Name
  req : ReqId → Option (Req Name)

/-- Request `id` goes on as `q`. -/
def State.setReq {Name : Type} (s : State Name) (id : ReqId) (q : Req Name) : State Name :=
  { s with req := Function.update s.req id (some q) }

@[simp] theorem State.setReq_self {Name : Type} {s : State Name} {id : ReqId} {q : Req Name} :
    (s.setReq id q).req id = some q := by
  show Function.update s.req id (some q) id = some q
  rw [Function.update_self]

theorem State.setReq_setReq {Name : Type} {s : State Name} {id : ReqId} {q q' : Req Name} :
    (s.setReq id q).setReq id q' = s.setReq id q' := by
  simp [State.setReq]

theorem State.setReq_ne {Name : Type} {s : State Name} {id id' : ReqId} {q : Req Name} (h : id' ≠ id) :
    (s.setReq id q).req id' = s.req id' := by
  show Function.update s.req id (some q) id' = s.req id'
  rw [Function.update_of_ne h]

/-- A `Call` is made, a request takes a step, or the tables are changed. -/
inductive Event (Name : Type) where
  | call (id : ReqId) (endname : Name) (svcMeth : String) (args : Bytes)
  | req (id : ReqId) (a : ReqAction)
  | table (a : TableAction Name)
deriving DecidableEq, Repr

/-- A step of the system. -/
inductive Step {Name : Type} [DecidableEq Name] : State Name → Event Name → State Name → Prop where
  | call {s id endname svcMeth args} : s.req id = none →
      Step s (.call id endname svcMeth args)
        (s.setReq id { endname := endname, svcMeth := svcMeth, args := args })
  | req {s id a q q'} : s.req id = some q → ReqStep s.rn q a q' → Step s (.req id a) (s.setReq id q')
  | table {s a} : Step s (.table a) { s with rn := s.rn.apply a }

/-- From `MakeNetwork` on. -/
def network (Name : Type) [DecidableEq Name] : LTS (State Name) (Event Name) where
  init := ⟨⟨true, false, fun _ => false, fun _ => none, fun _ => none, false⟩, fun _ => none⟩
  step := Step

/-- The step of a request that an action names, if it is possible: the executable form of `ReqStep`. -/
def reqNext {Name : Type} (rn : Tables Name) (q : Req Name) : ReqAction → Option (Req Name)
  | .accept => match q.call with
      | .sending => some { q with call := .waiting, proc := .start }
      | _ => none
  | .refuse => match q.call with
      | .sending => if rn.done then some { q with call := .returned noReply } else none
      | _ => none
  | .read => match q.proc with
      | .start => match rn.readEndnameInfo q.endname with
          | some info => some { q with proc := .admitted info }
          | none => some { q with proc := .ended, timer := some noReply }
      | _ => none
  | .dropRequest => match q.proc with
      | .admitted info => if info.reliable then none else some { q with proc := .sending noReply }
      | _ => none
  | .spawn => match q.proc with
      | .admitted info => some { q with proc := .waiting info, handler := .spawned info.server }
      | _ => none
  | .dispatch server svcMeth args => match q.handler with
      | .spawned server' =>
          if server = server' ∧ svcMeth = q.svcMeth ∧ args = q.args then
            some { q with handler := .running server' }
          else none
      | _ => none
  | .handlerReturns r => match q.handler with
      | .running server => some { q with handler := .returned server r }
      | _ => none
  | .take => match q.proc, q.handler with
      | .waiting info, .returned server r =>
          some { q with proc := .replied info r, handler := .taken server r }
      | _, _ => none
  | .poll => match q.proc with
      | .waiting info =>
          if rn.isServerDead q.endname info.servername info.server then
            some { q with proc := .gaveUp info }
          else some q
      | _ => none
  | .drain => match q.handler with
      | .returned server r => if q.proc.isWaiting then none else some { q with handler := .taken server r }
      | _ => none
  | .check => match q.proc with
      | .replied info r =>
          if rn.isServerDead q.endname info.servername info.server then
            some { q with proc := .sending noReply }
          else some { q with proc := .alive info r }
      | .gaveUp _ => some { q with proc := .sending noReply }
      | _ => none
  | .dropReply => match q.proc with
      | .alive info _ => if info.reliable then none else some { q with proc := .sending noReply }
      | _ => none
  | .delayReply => match q.proc with
      | .alive info r =>
          if info.longReordering then some { q with proc := .ended, timer := some r } else none
      | _ => none
  | .directReply => match q.proc with
      | .alive _ r => some { q with proc := .sending r }
      | _ => none
  | .reply rep => match q.proc, q.call with
      | .sending rep', .waiting =>
          if rep = rep' then some { q with proc := .ended, call := .returned rep' } else none
      | _, _ => none
  | .fire rep => match q.timer, q.call with
      | some rep', .waiting =>
          if rep = rep' then some { q with timer := none, call := .returned rep' } else none
      | _, _ => none

/-- The executable form of `Step`. -/
def next {Name : Type} [DecidableEq Name] (s : State Name) : Event Name → Option (State Name)
  | .call id endname svcMeth args => match s.req id with
      | none => some (s.setReq id { endname := endname, svcMeth := svcMeth, args := args })
      | some _ => none
  | .req id a => (s.req id).bind (fun q => (reqNext s.rn q a).map (s.setReq id))
  | .table a => some { s with rn := s.rn.apply a }

theorem reqNext_of_step {Name : Type} {rn : Tables Name} {q q' : Req Name} {a : ReqAction}
    (h : ReqStep rn q a q') : reqNext rn q a = some q' := by
  cases h <;> simp_all [reqNext]

theorem step_of_reqNext {Name : Type} {rn : Tables Name} {q q' : Req Name} {a : ReqAction}
    (h : reqNext rn q a = some q') : ReqStep rn q a q' := by
  cases a with
  | accept =>
      simp only [reqNext] at h
      split at h <;> cases h
      exact .accept ‹_›
  | refuse =>
      simp only [reqNext] at h
      split at h
      · split at h <;> cases h
        exact .refuse ‹_› ‹_›
      · cases h
  | read =>
      simp only [reqNext] at h
      split at h
      · split at h <;> cases h
        · exact .read ‹_› ‹_›
        · exact .readNone ‹_› ‹_›
      · cases h
  | dropRequest =>
      simp only [reqNext] at h
      split at h
      · split at h <;> cases h
        exact .dropRequest ‹_› (Bool.eq_false_iff.mpr ‹_›)
      · cases h
  | spawn =>
      simp only [reqNext] at h
      split at h <;> cases h
      exact .spawn ‹_›
  | dispatch server svcMeth args =>
      simp only [reqNext] at h
      split at h
      · split at h <;> cases h
        rename_i heq
        obtain ⟨rfl, rfl, rfl⟩ := heq
        exact .dispatch ‹_›
      · cases h
  | handlerReturns r =>
      simp only [reqNext] at h
      split at h <;> cases h
      exact .handlerReturns ‹_›
  | take =>
      simp only [reqNext] at h
      split at h <;> cases h
      exact .take ‹_› ‹_›
  | poll =>
      simp only [reqNext] at h
      split at h
      · split at h <;> cases h
        · exact .pollDead ‹_› ‹_›
        · exact .poll ‹_› (Bool.eq_false_iff.mpr ‹_›)
      · cases h
  | drain =>
      simp only [reqNext] at h
      split at h
      · split at h <;> cases h
        exact .drain ‹_› (Bool.eq_false_iff.mpr ‹_›)
      · cases h
  | check =>
      simp only [reqNext] at h
      split at h
      · split at h <;> cases h
        · exact .checkDead ‹_› ‹_›
        · exact .check ‹_› (Bool.eq_false_iff.mpr ‹_›)
      · cases h
        exact .checkGaveUp ‹_›
      · cases h
  | dropReply =>
      simp only [reqNext] at h
      split at h
      · split at h <;> cases h
        exact .dropReply ‹_› (Bool.eq_false_iff.mpr ‹_›)
      · cases h
  | delayReply =>
      simp only [reqNext] at h
      split at h
      · split at h <;> cases h
        exact .delayReply ‹_› ‹_›
      · cases h
  | directReply =>
      simp only [reqNext] at h
      split at h <;> cases h
      exact .directReply ‹_›
  | reply rep =>
      simp only [reqNext] at h
      split at h
      · split at h <;> cases h
        subst rep
        exact .reply ‹_› ‹_›
      · cases h
  | fire rep =>
      simp only [reqNext] at h
      split at h
      · split at h <;> cases h
        subst rep
        exact .fire ‹_› ‹_›
      · cases h

theorem network_computedBy {Name : Type} [DecidableEq Name] : (network Name).ComputedBy next := by
  intro s e s'
  constructor
  · intro h
    change Step s e s' at h
    cases h with
    | call hnew => simp [next, hnew]
    | req hq hstep => simp [next, hq, reqNext_of_step hstep]
    | table => rfl
  · intro h
    show Step s e s'
    cases e with
    | call id endname svcMeth args =>
        simp only [next] at h
        split at h <;> cases h
        exact .call ‹_›
    | req id a =>
        obtain ⟨q, hq, hmap⟩ := Option.bind_eq_some_iff.mp h
        obtain ⟨q', hnext, rfl⟩ := Option.map_eq_some_iff.mp hmap
        exact .req hq (step_of_reqNext hnext)
    | table a =>
        cases h
        exact .table

end LabRpc
end DistributedLabs
