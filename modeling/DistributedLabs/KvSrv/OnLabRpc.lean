import DistributedLabs.KvSrv.Network
import DistributedLabs.LabRpc.Semantics
import Mathlib.Data.List.Perm.Basic

/-!
# `KvSrv.OnLabRpc` — the key/value service on the simulated network

`KvSrv.Network` has an RPC attempt of a Clerk go through a handful of moments; `LabRpc.Network` has what `labrpc.go`
does with a request. Here the two are put together: the Clerks of `kvsrv1/client.go` make `Call`s of the simulated
network, whose tables are changed meanwhile, and the handlers run at one `KVServer`. Whatever such a system shows of
itself, the calls and returns of the Clerks and the executions at the server, `net` can show too
(`labRpc_refines_net`). So what holds of the runs of `net` holds on `labrpc`.

The server may be in the process of the tester or a daemon. With a daemon the goroutine that runs the handler waits
for a connection, and returns a failure (`fail`) when that is lost; the handler may run nevertheless, even later.

## The simulation

Many steps of a request are none of `net`: reading the tables, waiting, giving up. What `net` has of a request is
whether its handler has run, and whether somebody still waits for it (`Rel`):

* the current attempt of a Clerk is `sent` until the handler has run, and `served` then (`Clerk.call`);
* an attempt that the Clerk has given up and whose handler may yet run is out late (`Listed`). When `Call` returns false
  it is decided which of the moments of `net` that was: `lose` if the handler has run, `abandon` if it has been started,
  `drop` if it never will be.

`Inv` is about `labrpc` alone and says what is needed for that: a `Call` that has returned true has the reply of its own
handler (`ReqOk.reply`), and when a `Call` has returned it is too late to start its handler (`absent_step`).
-/

namespace DistributedLabs
namespace KvSrv
namespace OnLabRpc

open Lib
open LabRpc (ReqId ServerId Bytes ReqAction TableAction Req Tables)

/-! ## Requests and replies as bytes -/

/-- `Marshall` and `Unmarshall` of values of one type. -/
structure Gob (α : Type) where
  marshall : α → Bytes
  unmarshall : Bytes → Option α
  unmarshall_marshall : ∀ a, unmarshall (marshall a) = some a

/-- How the arguments and replies of the two methods are encoded. -/
structure Wire where
  getArgs : Gob GetArgs
  putArgs : Gob PutArgs
  getReply : Gob GetReply
  putReply : Gob PutReply

/-- `strings.LastIndex` of one character. -/
def lastIndex (c : Char) : List Char → Option Nat
  | [] => none
  | x :: xs =>
      match lastIndex c xs with
      | some i => some (i + 1)
      | none => if x = c then some 0 else none

/-- The service and the method that a name is made of. -/
def splitSvcMeth (svcMeth : String) : Option (String × String) :=
  (lastIndex '.' svcMeth.toList).map fun dot =>
    (String.ofList (svcMeth.toList.take dot), String.ofList (svcMeth.toList.drop (dot + 1)))

/-- The method that a Clerk calls. -/
def svcMeth : Op → String
  | .get _ => "KVServer.Get"
  | .put _ => "KVServer.Put"

/-- The arguments as a Clerk sends them. -/
def Wire.args (w : Wire) : Op → Bytes
  | .get args => w.getArgs.marshall args
  | .put args => w.putArgs.marshall args

/-- `Server.dispatch` and `Service.dispatch` up to the call of the method; `none` is fatal. -/
def Wire.request (w : Wire) (svcMeth : String) (args : Bytes) : Option Op :=
  (splitSvcMeth svcMeth).bind fun (serviceName, methodName) =>
    if serviceName ≠ "KVServer" then none
    else if methodName = "Get" then (w.getArgs.unmarshall args).map .get
    else if methodName = "Put" then (w.putArgs.unmarshall args).map .put
    else none

/-- What `Service.dispatch` makes of the reply of the method. -/
def Wire.reply (w : Wire) : Reply → Bytes
  | .get r => w.getReply.marshall r
  | .put r => w.putReply.marshall r

/-- What a Clerk reads in a reply. -/
def Wire.readReply (w : Wire) : Op → Bytes → Option Reply
  | .get _, b => (w.getReply.unmarshall b).map .get
  | .put _, b => (w.putReply.unmarshall b).map .put

/-- The server reads what a Clerk has sent. -/
theorem request_args (w : Wire) (op : Op) : w.request (svcMeth op) (w.args op) = some op := by
  cases op with
  | get args =>
      have hsplit : splitSvcMeth "KVServer.Get" = some ("KVServer", "Get") := by decide
      show (splitSvcMeth "KVServer.Get").bind _ = _
      rw [hsplit]
      show (w.getArgs.unmarshall (w.getArgs.marshall args)).map Op.get = _
      rw [w.getArgs.unmarshall_marshall]
      rfl
  | put args =>
      have hsplit : splitSvcMeth "KVServer.Put" = some ("KVServer", "Put") := by decide
      show (splitSvcMeth "KVServer.Put").bind _ = _
      rw [hsplit]
      show (w.putArgs.unmarshall (w.putArgs.marshall args)).map Op.put = _
      rw [w.putArgs.unmarshall_marshall]
      rfl

theorem readReply_dispatch (w : Wire) (kv : KVServer) (op : Op) :
    w.readReply op (w.reply (kv.dispatch op).2) = some (kv.dispatch op).2 := by
  cases op with
  | get args =>
      show (w.getReply.unmarshall (w.getReply.marshall _)).map Reply.get = _
      rw [w.getReply.unmarshall_marshall]
      rfl
  | put args =>
      show (w.putReply.unmarshall (w.putReply.marshall _)).map Reply.put = _
      rw [w.putReply.unmarshall_marshall]
      rfl

/-! ## The system -/

/-- A call of `Clerk.Get` or `Clerk.Put` in progress, with the request of its current attempt. -/
structure Clerk where
  id : Nat
  op : Op
  retried : Bool
  cur : ReqId
deriving DecidableEq, Repr

/-- `ran` has what the handler replied, for the requests for which it has run. -/
structure State (Name : Type) where
  rpc : LabRpc.State Name
  kv : KVServer
  ran : ReqId → Option Reply
  clerks : ClientId → Option Clerk
  nextId : Nat

/-- The steps of the Clerks, of a request, of the handlers, and changes of the tables. -/
inductive Event (Name : Type) where
  | invoke (c : ClientId) (id : Nat) (op : Op) (rid : ReqId) (endname : Name)
  | resend (c : ClientId) (rid : ReqId) (endname : Name)
  | ret (c : ClientId) (id : Nat) (op : Op) (r : Reply)
  | req (rid : ReqId) (a : ReqAction)
  | run (rid : ReqId) (op : Op) (r : Reply)
  | answer (rid : ReqId)
  | fail (rid : ReqId)
  | table (a : TableAction Name)

/-- The one instance of the server. -/
def kvsrv : ServerId := 0

/-- The goroutine that runs the handler has got to it. -/
def started : LabRpc.Handler → Bool
  | .absent => false
  | .spawned _ => false
  | _ => true

section System

variable {Name : Type} [DecidableEq Name]

/-- The `Call` that an attempt of a Clerk is. -/
def newReq (w : Wire) (op : Op) (endname : Name) : Req Name :=
  { endname := endname, svcMeth := svcMeth op, args := w.args op }

/-- A step of a Clerk, of the network, or of the server. -/
inductive Step (w : Wire) : State Name → Event Name → State Name → Prop where
  -- the Clerks
  | invoke {s c op rid endname} : s.clerks c = none → s.rpc.req rid = none →
      Step w s (.invoke c s.nextId op rid endname)
        { s with
          rpc := s.rpc.setReq rid (newReq w op endname)
          clerks := Function.update s.clerks c (some ⟨s.nextId, op, false, rid⟩)
          nextId := s.nextId + 1 }
  | resend {s c k q rep rid endname} : s.clerks c = some k → s.rpc.req k.cur = some q → q.call = .returned rep →
      rep.ok = false → s.rpc.req rid = none →
      Step w s (.resend c rid endname)
        { s with
          rpc := s.rpc.setReq rid (newReq w k.op endname)
          clerks := Function.update s.clerks c (some { k with retried := true, cur := rid }) }
  | ret {s c k q rep r} : s.clerks c = some k → s.rpc.req k.cur = some q → q.call = .returned rep →
      rep.ok = true → w.readReply k.op rep.reply = some r →
      Step w s (.ret c k.id k.op (clerkResult k.retried r))
        { s with clerks := Function.update s.clerks c none }
  -- the network
  | req {s rid q a q'} : s.rpc.req rid = some q → LabRpc.ReqStep s.rpc.rn q a q' →
      (∀ r, a ≠ .handlerReturns r) → Step w s (.req rid a) { s with rpc := s.rpc.setReq rid q' }
  | table {s a} : (∀ servername rs, a = .addServer servername rs → rs = kvsrv) →
      Step w s (.table a) { s with rpc := { s.rpc with rn := s.rpc.rn.apply a } }
  -- the server
  | run {s rid q op} : s.rpc.req rid = some q → started q.handler = true → s.ran rid = none →
      w.request q.svcMeth q.args = some op →
      Step w s (.run rid op (s.kv.dispatch op).2)
        { s with kv := (s.kv.dispatch op).1, ran := Function.update s.ran rid (some (s.kv.dispatch op).2) }
  | answer {s rid q q' r} : s.rpc.req rid = some q → s.ran rid = some r →
      LabRpc.ReqStep s.rpc.rn q (.handlerReturns ⟨true, w.reply r⟩) q' →
      Step w s (.answer rid) { s with rpc := s.rpc.setReq rid q' }
  | fail {s rid q q'} : s.rpc.req rid = some q →
      LabRpc.ReqStep s.rpc.rn q (.handlerReturns LabRpc.noReply) q' →
      Step w s (.fail rid) { s with rpc := s.rpc.setReq rid q' }

/-- From `MakeNetwork` and `MakeKVServer` on. -/
def onLabRpc (Name : Type) [DecidableEq Name] (w : Wire) : LTS (State Name) (Event Name) where
  init :=
    { rpc := (LabRpc.network Name).init
      kv := makeKVServer
      ran := fun _ => none
      clerks := fun _ => none
      nextId := 0 }
  step := Step w

end System

/-! ## What is seen -/

/-- The calls and returns of the Clerks, and the executions at the server. -/
inductive Seen where
  | call (c : ClientId) (id : Nat) (op : Op)
  | exec (op : Op) (r : Reply)
  | result (c : ClientId) (id : Nat) (op : Op) (r : Reply)
deriving DecidableEq, Repr

/-- What is seen of a step on `labrpc`. -/
def seen {Name : Type} : Event Name → Option Seen
  | .invoke c id op _ _ => some (.call c id op)
  | .run _ op r => some (.exec op r)
  | .ret c id op r => some (.result c id op r)
  | _ => none

/-- What is seen of a step of `net`. -/
def seenNet : KvSrv.Event → Option Seen
  | .invoke c id op => some (.call c id op)
  | .serve _ _ op r => some (.exec op r)
  | .serveLate _ op r => some (.exec op r)
  | .ret c id op r => some (.result c id op r)
  | _ => none

/-! ## One request -/

section Requests

variable {Name : Type} {w : Wire} {rn : Tables Name} {q q' : Req Name} {a : ReqAction}

/-- What is known of a request, given what its handler has replied. -/
structure ReqOk (w : Wire) (q : Req Name) (ran : Option Reply) : Prop where
  stage : LabRpc.Stage (fun _ => True) (fun _ _ => True) q q.proc
  op : ∃ op, w.request q.svcMeth q.args = some op ∧ ∀ r, ran = some r → ∃ kv : KVServer, r = (kv.dispatch op).2
  early : started q.handler = false → ran = none
  answered : ∀ r ∈ q.results, r.ok = true → ∃ rep, ran = some rep ∧ r.reply = w.reply rep

theorem reqOk_new (w : Wire) (op : Op) (endname : Name) : ReqOk w (newReq w op endname) none := by
  refine ⟨?_, ⟨op, request_args w op, fun r hr => by cases hr⟩, fun _ => rfl, fun r hr => by cases hr⟩
  refine .idle ?_ rfl rfl
  intro rep hrep
  cases hrep

theorem ne_absent (h : started q.handler = true) : q.handler ≠ .absent := by
  intro habsent
  rw [habsent] at h
  cases h

/-- A handler that has been got to stays so. -/
theorem started_step (hq : LabRpc.Stage (fun _ => True) (fun _ _ => True) q q.proc)
    (hstep : LabRpc.ReqStep rn q a q') (h : started q'.handler = false) : started q.handler = false := by
  cases hstep with
  | spawn hproc =>
      rw [hq.absent hproc]
      rfl
  | dispatch hspawned => cases h
  | handlerReturns hrunning => cases h
  | take _ hreturned => cases h
  | drain hreturned _ => cases h
  | _ => exact h

/-- A request keeps what is known of it, if its handler returns what it has replied, or a failure. -/
theorem ReqOk.step {ran : Option Reply} (h : ReqOk w q ran) (hstep : LabRpc.ReqStep rn q a q')
    (hreturns : ∀ r, a = .handlerReturns r → r.ok = true → ∃ rep, ran = some rep ∧ r.reply = w.reply rep) :
    ReqOk w q' ran := by
  have hsame := hstep.same_request
  simp only [Prod.mk.injEq] at hsame
  refine ⟨h.stage.step hstep (fun _ _ _ => trivial) (fun _ _ _ _ _ => trivial), ?_, ?_, ?_⟩
  · rw [hsame.2.1, hsame.2.2]
    exact h.op
  · exact fun hearly => h.early (started_step h.stage hstep hearly)
  · intro r hr hok
    rw [LabRpc.results_step h.stage hstep, List.mem_append] at hr
    rcases hr with hr | hr
    · exact h.answered r hr hok
    · cases a with
      | handlerReturns r' =>
          obtain rfl : r = r' := List.mem_singleton.mp hr
          exact hreturns r rfl hok
      | _ => cases hr

/-- A `Call` that has returned true has what the handler replied. -/
theorem ReqOk.reply {ran : Option Reply} {rep : LabRpc.ReplyMsg} (h : ReqOk w q ran) (hcall : q.call = .returned rep)
    (hok : rep.ok = true) : ∃ r, ran = some r ∧ rep.reply = w.reply r := by
  obtain ⟨-, info, -, htaken, -⟩ := h.stage.of_returned hcall hok
  apply h.answered rep _ hok
  unfold LabRpc.Req.results
  rw [htaken]
  exact List.mem_singleton_self rep

/-- A `Call` that has returned stays so. -/
theorem returned_step {rep : LabRpc.ReplyMsg} (hcall : q.call = .returned rep)
    (hstep : LabRpc.ReqStep rn q a q') : q'.call = .returned rep := by
  cases hstep with
  | accept hsending => cases hcall.symm.trans hsending
  | refuse hsending _ => cases hcall.symm.trans hsending
  | reply _ hwaiting => cases hcall.symm.trans hwaiting
  | fire _ hwaiting => cases hcall.symm.trans hwaiting
  | _ => exact hcall

/-- When a `Call` has returned, it is too late to start the handler. -/
theorem absent_step {rep : LabRpc.ReplyMsg} (hq : LabRpc.Stage (fun _ => True) (fun _ _ => True) q q.proc)
    (hcall : q.call = .returned rep) (hstep : LabRpc.ReqStep rn q a q') (h : q.handler = .absent) :
    q'.handler = .absent := by
  cases hstep with
  | spawn hproc =>
      rw [hproc] at hq
      cases hq with
      | admitted hopen _ _ => cases hcall.symm.trans hopen.1
  | dispatch hspawned => cases h.symm.trans hspawned
  | handlerReturns hrunning => cases h.symm.trans hrunning
  | take _ hreturned => cases h.symm.trans hreturned
  | drain hreturned _ => cases h.symm.trans hreturned
  | _ => exact h

end Requests

/-! ## The relation -/

section Relation

variable {Name : Type} {w : Wire} {s : State Name} {t : KvSrv.State} {rid : ReqId} {q q' : Req Name} {a : ReqAction}
  {c : ClientId} {k : Clerk}

/-- The request is the current attempt of a Clerk. -/
def State.Current (s : State Name) (rid : ReqId) : Prop := ∃ c k, s.clerks c = some k ∧ k.cur = rid

/-- What holds of the requests and the Clerks, for themselves. -/
structure Inv (w : Wire) (s : State Name) : Prop where
  reqs : ∀ rid q, s.rpc.req rid = some q → ReqOk w q (s.ran rid)
  unknown : ∀ rid, s.rpc.req rid = none → s.ran rid = none
  current : ∀ c k, s.clerks c = some k →
    ∃ q, s.rpc.req k.cur = some q ∧ q.svcMeth = svcMeth k.op ∧ q.args = w.args k.op
  distinct : ∀ c c' k k', s.clerks c = some k → s.clerks c' = some k' → k.cur = k'.cur → c = c'
  left : ∀ rid q, s.rpc.req rid = some q → ¬ s.Current rid → ∃ rep, q.call = .returned rep

/-- The call of `net` that a call of a Clerk is, after what its current attempt has got to. -/
def Clerk.call (k : Clerk) (ran : Option Reply) : Call :=
  { id := k.id
    op := k.op
    retried := k.retried
    attempt := match ran with
      | none => .sent
      | some r => .served r }

/-- The requests that may still be executed though no Clerk waits for them are in the list. -/
def Listed (w : Wire) (s : State Name) (L : List (ReqId × Nat × Op)) : Prop :=
  ∀ rid q, s.rpc.req rid = some q → q.handler ≠ .absent → s.ran rid = none → ¬ s.Current rid →
    ∃ id op, (rid, id, op) ∈ L ∧ w.request q.svcMeth q.args = some op

/-- The state of `net` that a state on `labrpc` is. -/
structure Rel (w : Wire) (s : State Name) (t : KvSrv.State) : Prop where
  inv : Inv w s
  kv : t.kv = s.kv
  nextId : t.nextId = s.nextId
  calls : ∀ c, t.calls c = (s.clerks c).map (fun k => k.call (s.ran k.cur))
  late : ∃ L, Listed w s L ∧ t.late.Perm (L.map Prod.snd)

/-- Both start with a fresh server and nobody in a call. -/
theorem rel_init [DecidableEq Name] (w : Wire) : Rel w (onLabRpc Name w).init net.init := by
  refine ⟨⟨?_, ?_, ?_, ?_, ?_⟩, rfl, rfl, fun _ => rfl, [], ?_, List.Perm.refl _⟩
  · intro rid q hq
    cases hq
  · exact fun _ _ => rfl
  · intro c k hc
    cases hc
  · intro c c' k k' hc
    cases hc
  · intro rid q hq
    cases hq
  · intro rid q hq
    cases hq

/-! ## A step of a request, or of the tables -/

theorem Inv.reqStep (h : Inv w s) (hq : s.rpc.req rid = some q) (hstep : LabRpc.ReqStep s.rpc.rn q a q')
    (hreturns : ∀ r, a = .handlerReturns r → r.ok = true → ∃ rep, s.ran rid = some rep ∧ r.reply = w.reply rep) :
    Inv w { s with rpc := s.rpc.setReq rid q' } := by
  have hsame := hstep.same_request
  simp only [Prod.mk.injEq] at hsame
  constructor
  · intro i p hp
    rcases update_cases hp with ⟨rfl, heq⟩ | ⟨_, hp⟩
    · obtain rfl := Option.some.inj heq
      exact (h.reqs i q hq).step hstep hreturns
    · exact h.reqs i p hp
  · intro i hi
    rcases update_cases hi with ⟨rfl, heq⟩ | ⟨_, hi⟩
    · cases heq
    · exact h.unknown i hi
  · intro c k hc
    obtain ⟨p, hp, hmeth, hargs⟩ := h.current c k hc
    by_cases hcur : k.cur = rid
    · rw [hcur, hq] at hp
      obtain rfl := Option.some.inj hp
      refine ⟨q', ?_, hsame.2.1.trans hmeth, hsame.2.2.trans hargs⟩
      rw [hcur]
      exact LabRpc.State.setReq_self
    · exact ⟨p, (LabRpc.State.setReq_ne hcur).trans hp, hmeth, hargs⟩
  · exact h.distinct
  · intro i p hp hleft
    rcases update_cases hp with ⟨rfl, heq⟩ | ⟨_, hp⟩
    · obtain rfl := Option.some.inj heq
      obtain ⟨rep, hcall⟩ := h.left i q hq hleft
      exact ⟨rep, returned_step hcall hstep⟩
    · exact h.left i p hp hleft

/-- A request takes a step that is none of `net`. -/
theorem Rel.reqStep (h : Rel w s t) (hq : s.rpc.req rid = some q) (hstep : LabRpc.ReqStep s.rpc.rn q a q')
    (hreturns : ∀ r, a = .handlerReturns r → r.ok = true → ∃ rep, s.ran rid = some rep ∧ r.reply = w.reply rep) :
    Rel w { s with rpc := s.rpc.setReq rid q' } t := by
  have hsame := hstep.same_request
  simp only [Prod.mk.injEq] at hsame
  obtain ⟨L, hL, hperm⟩ := h.late
  refine ⟨h.inv.reqStep hq hstep hreturns, h.kv, h.nextId, h.calls, L, ?_, hperm⟩
  intro i p hp hhandler hran hleft
  rcases update_cases hp with ⟨rfl, heq⟩ | ⟨_, hp⟩
  · obtain rfl := Option.some.inj heq
    obtain ⟨rep, hcall⟩ := h.inv.left i q hq hleft
    rw [hsame.2.1, hsame.2.2]
    refine hL i q hq ?_ hran hleft
    exact fun habsent => hhandler (absent_step (h.inv.reqs i q hq).stage hcall hstep habsent)
  · exact hL i p hp hhandler hran hleft

theorem Rel.table [DecidableEq Name] (h : Rel w s t) (a : TableAction Name) :
    Rel w { s with rpc := { s.rpc with rn := s.rpc.rn.apply a } } t := by
  obtain ⟨L, hL, hperm⟩ := h.late
  exact ⟨⟨h.inv.reqs, h.inv.unknown, h.inv.current, h.inv.distinct, h.inv.left⟩, h.kv, h.nextId, h.calls, L, hL,
    hperm⟩

/-! ## A new attempt, or none -/

/-- Client `c` goes on with the call `k`, whose attempt is the new request `rid`. -/
def State.attempt (s : State Name) (w : Wire) (c : ClientId) (k : Clerk) (endname : Name) (nextId : Nat) : State Name :=
  { s with
    rpc := s.rpc.setReq k.cur (newReq w k.op endname)
    clerks := Function.update s.clerks c (some k)
    nextId := nextId }

/-- If client `c` is in a call, the `Call` it made last has returned. -/
def State.Idle (s : State Name) (c : ClientId) : Prop :=
  ∀ k q, s.clerks c = some k → s.rpc.req k.cur = some q → ∃ rep, q.call = .returned rep

theorem Inv.cur_ne (h : Inv w s) (hnew : s.rpc.req rid = none) (hc : s.clerks c = some k) : k.cur ≠ rid := by
  obtain ⟨q, hq, -⟩ := h.current c k hc
  rintro rfl
  cases hnew.symm.trans hq

/-- A request that is not current after client `c` has gone on was not current before, or was its. -/
theorem current_before {clerks : Option Clerk} {i : ReqId}
    (hleft : ¬ State.Current { s with clerks := Function.update s.clerks c clerks } i) (hcur : s.Current i) :
    ∃ k, s.clerks c = some k ∧ k.cur = i := by
  obtain ⟨c', k, hc', hk⟩ := hcur
  by_cases hcc : c' = c
  · rw [hcc] at hc'
    exact ⟨k, hc', hk⟩
  · exact absurd ⟨c', k, (Function.update_of_ne hcc ..).trans hc', hk⟩ hleft

theorem Inv.attempt (h : Inv w s) (hnew : s.rpc.req k.cur = none) (hidle : s.Idle c) (endname : Name) (nextId : Nat) :
    Inv w (s.attempt w c k endname nextId) := by
  constructor
  · intro i p hp
    rcases update_cases hp with ⟨rfl, heq⟩ | ⟨_, hp⟩
    · obtain rfl := Option.some.inj heq
      have hran : s.ran k.cur = none := h.unknown _ hnew
      show ReqOk w _ (s.ran k.cur)
      rw [hran]
      exact reqOk_new w k.op endname
    · exact h.reqs i p hp
  · intro i hi
    rcases update_cases hi with ⟨rfl, heq⟩ | ⟨_, hi⟩
    · cases heq
    · exact h.unknown i hi
  · intro c' k' hc'
    rcases update_cases hc' with ⟨rfl, heq⟩ | ⟨_, hc'⟩
    · obtain rfl := Option.some.inj heq
      exact ⟨_, LabRpc.State.setReq_self, rfl, rfl⟩
    · obtain ⟨p, hp, hmeth, hargs⟩ := h.current c' k' hc'
      exact ⟨p, (LabRpc.State.setReq_ne (h.cur_ne hnew hc')).trans hp, hmeth, hargs⟩
  · intro c₁ c₂ k₁ k₂ h₁ h₂ hcur
    rcases update_cases h₁ with ⟨rfl, heq₁⟩ | ⟨_, hold₁⟩
    · obtain rfl := Option.some.inj heq₁
      rcases update_cases h₂ with ⟨rfl, _⟩ | ⟨_, hold₂⟩
      · rfl
      · exact absurd hcur.symm (h.cur_ne hnew hold₂)
    · rcases update_cases h₂ with ⟨rfl, heq₂⟩ | ⟨_, hold₂⟩
      · obtain rfl := Option.some.inj heq₂
        exact absurd hcur (h.cur_ne hnew hold₁)
      · exact h.distinct c₁ c₂ k₁ k₂ hold₁ hold₂ hcur
  · intro i p hp hleft
    rcases update_cases hp with ⟨rfl, _⟩ | ⟨_, hp⟩
    · exact absurd ⟨c, k, Function.update_self .., rfl⟩ hleft
    -- the request is left behind by this very attempt, or was before
    · by_cases hcur : s.Current i
      · obtain ⟨k', hc, rfl⟩ := current_before hleft hcur
        exact hidle k' p hc hp
      · exact h.left i p hp hcur

/-- `net` goes on with the same call; what the Clerk leaves behind has to be in the list. -/
theorem Rel.attempt (h : Rel w s t) (hnew : s.rpc.req k.cur = none) (hidle : s.Idle c) (endname : Name)
    {nextId : Nat} {t' : KvSrv.State} {L : List (ReqId × Nat × Op)} (hkv : t'.kv = t.kv) (hnextId : t'.nextId = nextId)
    (hcalls : t'.calls = Function.update t.calls c (some (k.call none))) (hL : Listed w s L)
    (hbehind : ∀ k' q, s.clerks c = some k' → s.rpc.req k'.cur = some q → q.handler ≠ .absent →
      s.ran k'.cur = none → ∃ id op, (k'.cur, id, op) ∈ L ∧ w.request q.svcMeth q.args = some op)
    (hperm : t'.late.Perm (L.map Prod.snd)) :
    Rel w (s.attempt w c k endname nextId) t' := by
  refine ⟨h.inv.attempt hnew hidle endname nextId, hkv.trans h.kv, hnextId, ?_, L, ?_, hperm⟩
  · intro c'
    have hran : s.ran k.cur = none := h.inv.unknown _ hnew
    show _ = (Function.update s.clerks c (some k) c').map (fun k => k.call (s.ran k.cur))
    rw [hcalls]
    by_cases hc : c' = c
    · subst hc
      rw [Function.update_self, Function.update_self, Option.map_some, hran]
    · rw [Function.update_of_ne hc, Function.update_of_ne hc]
      exact h.calls c'
  · intro i p hp hhandler hran hleft
    rcases update_cases hp with ⟨rfl, _⟩ | ⟨_, hp⟩
    · exact absurd ⟨c, k, Function.update_self .., rfl⟩ hleft
    · by_cases hcur : s.Current i
      · obtain ⟨k', hc, rfl⟩ := current_before hleft hcur
        exact hbehind k' p hc hp hhandler hran
      · exact hL i p hp hhandler hran hcur

theorem Rel.call_of (h : Rel w s t) (hc : s.clerks c = some k) : t.calls c = some (k.call (s.ran k.cur)) := by
  rw [h.calls c, hc]
  rfl

/-- The call is over. -/
theorem Rel.ret (h : Rel w s t) {r : Reply} (hidle : s.Idle c) (hc : s.clerks c = some k)
    (hran : s.ran k.cur = some r) : Rel w { s with clerks := Function.update s.clerks c none } (t.setCall c none) := by
  obtain ⟨L, hL, hperm⟩ := h.late
  refine ⟨⟨h.inv.reqs, h.inv.unknown, ?_, ?_, ?_⟩, h.kv, h.nextId, ?_, L, ?_, hperm⟩
  · intro c' k' hc'
    rcases update_cases hc' with ⟨rfl, heq⟩ | ⟨_, hc'⟩
    · cases heq
    · exact h.inv.current c' k' hc'
  · intro c₁ c₂ k₁ k₂ h₁ h₂ hcur
    rcases update_cases h₁ with ⟨rfl, heq⟩ | ⟨_, h₁⟩
    · cases heq
    · rcases update_cases h₂ with ⟨rfl, heq⟩ | ⟨_, h₂⟩
      · cases heq
      · exact h.inv.distinct c₁ c₂ k₁ k₂ h₁ h₂ hcur
  · intro i p hp hleft
    by_cases hcur : s.Current i
    · obtain ⟨k', hc', rfl⟩ := current_before hleft hcur
      exact hidle k' p hc' hp
    · exact h.inv.left i p hp hcur
  · intro c'
    show Function.update t.calls c none c' = (Function.update s.clerks c none c').map _
    by_cases hcc : c' = c
    · subst hcc
      rw [Function.update_self, Function.update_self]
      rfl
    · rw [Function.update_of_ne hcc, Function.update_of_ne hcc]
      exact h.calls c'
  · intro i p hp hhandler hnone hleft
    by_cases hcur : s.Current i
    · obtain ⟨k', hc', rfl⟩ := current_before hleft hcur
      obtain rfl : k = k' := Option.some.inj (hc.symm.trans hc')
      -- the request of the call has run, so it adds nothing to what is late
      cases hran.symm.trans hnone
    · exact hL i p hp hhandler hnone hcur

/-! ## An execution -/

theorem Inv.run (h : Inv w s) {op : Op} (hq : s.rpc.req rid = some q) (hstarted : started q.handler = true)
    (hran : s.ran rid = none) (hop : w.request q.svcMeth q.args = some op) (kv : KVServer) :
    Inv w { s with kv := kv, ran := Function.update s.ran rid (some (s.kv.dispatch op).2) } := by
  refine ⟨?_, ?_, h.current, h.distinct, h.left⟩
  · intro i p hp
    by_cases hi : i = rid
    · subst hi
      obtain rfl : p = q := Option.some.inj (hp.symm.trans hq)
      have hok := h.reqs i p hp
      show ReqOk w p (Function.update s.ran i _ i)
      rw [Function.update_self]
      refine ⟨hok.stage, ⟨op, hop, ?_⟩, ?_, ?_⟩
      · intro r hr
        exact ⟨s.kv, (Option.some.inj hr).symm⟩
      · intro hearly
        cases hearly.symm.trans hstarted
      · intro r hr hyes
        obtain ⟨rep, hrep, -⟩ := hok.answered r hr hyes
        cases hran.symm.trans hrep
    · show ReqOk w p (Function.update s.ran rid _ i)
      rw [Function.update_of_ne hi]
      exact h.reqs i p hp
  · intro i hi
    have hne : i ≠ rid := by
      rintro rfl
      cases hi.symm.trans hq
    exact (Function.update_of_ne hne ..).trans (h.unknown i hi)

/-- A handler runs for the current attempt of a Clerk: `serve`. -/
theorem Rel.runCurrent (h : Rel w s t) {op : Op} (hq : s.rpc.req rid = some q) (hstarted : started q.handler = true)
    (hran : s.ran rid = none) (hop : w.request q.svcMeth q.args = some op) (hc : s.clerks c = some k)
    (hcur : k.cur = rid) :
    ∃ t', KvSrv.Step t (.serve c k.id op (s.kv.dispatch op).2) t' ∧
      Rel w { s with kv := (s.kv.dispatch op).1, ran := Function.update s.ran rid (some (s.kv.dispatch op).2) } t' := by
  -- the request was made from the operation of the Clerk's call, and is read back as that
  obtain rfl : op = k.op := by
    obtain ⟨p, hp, hmeth, hargs⟩ := h.inv.current c k hc
    rw [hcur, hq] at hp
    obtain rfl := Option.some.inj hp
    rw [hmeth, hargs, request_args] at hop
    exact (Option.some.inj hop).symm
  have hcall := h.call_of hc
  rw [hcur, hran] at hcall
  have hserve := KvSrv.Step.serve hcall rfl
  rw [h.kv] at hserve
  refine ⟨_, hserve, ?_⟩
  obtain ⟨L, hL, hperm⟩ := h.late
  refine ⟨h.inv.run hq hstarted hran hop _, rfl, h.nextId, ?_, L, ?_, hperm⟩
  · intro c'
    show Function.update t.calls c _ c' =
      (s.clerks c').map (fun k' => k'.call (Function.update s.ran rid (some (s.kv.dispatch k.op).2) k'.cur))
    by_cases hcc : c' = c
    · subst hcc
      rw [Function.update_self, hc, Option.map_some, hcur, Function.update_self]
      rfl
    · rw [Function.update_of_ne hcc, h.calls c']
      cases hc' : s.clerks c' with
      | none => rfl
      | some k' =>
          -- no two Clerks have one request
          have hne : k'.cur ≠ rid := fun heq => hcc (h.inv.distinct c' c k' k hc' hc (heq.trans hcur.symm))
          rw [Option.map_some, Option.map_some, Function.update_of_ne hne]
  · intro i p hp hhandler hnone hleft
    rcases update_cases hnone with ⟨_, heq⟩ | ⟨_, hnone⟩
    · cases heq
    · exact hL i p hp hhandler hnone hleft

/-- A handler runs for an attempt that has been given up: `serveLate`. -/
theorem Rel.runLate (h : Rel w s t) {op : Op} (hq : s.rpc.req rid = some q) (hstarted : started q.handler = true)
    (hran : s.ran rid = none) (hop : w.request q.svcMeth q.args = some op) (hleft : ¬ s.Current rid) :
    ∃ id t', KvSrv.Step t (.serveLate id op (s.kv.dispatch op).2) t' ∧
      Rel w { s with kv := (s.kv.dispatch op).1, ran := Function.update s.ran rid (some (s.kv.dispatch op).2) } t' := by
  obtain ⟨L, hL, hperm⟩ := h.late
  -- `net` has an entry for every handler that was left behind and has not run
  obtain ⟨id, op', hmem, hop'⟩ := hL rid q hq (ne_absent hstarted) hran hleft
  obtain rfl : op = op' := Option.some.inj (hop.symm.trans hop')
  have hlate : (id, op) ∈ t.late := hperm.mem_iff.mpr (List.mem_map_of_mem hmem)
  have hserve := KvSrv.Step.serveLate hlate
  rw [h.kv] at hserve
  refine ⟨id, _, hserve, h.inv.run hq hstarted hran hop _, rfl, h.nextId, ?_, L.erase (rid, id, op), ?_, ?_⟩
  · intro c'
    show t.calls c' =
      (s.clerks c').map (fun k => k.call (Function.update s.ran rid (some (s.kv.dispatch op).2) k.cur))
    rw [h.calls c']
    cases hc' : s.clerks c' with
    | none => rfl
    | some k' =>
        have hne : k'.cur ≠ rid := fun heq => hleft ⟨c', k', hc', heq⟩
        rw [Option.map_some, Option.map_some, Function.update_of_ne hne]
  · intro i p hp hhandler hnone hcur
    rcases update_cases hnone with ⟨_, heq⟩ | ⟨hne, hnone⟩
    · cases heq
    · obtain ⟨id', op', hmem', hreq⟩ := hL i p hp hhandler hnone hcur
      refine ⟨id', op', (List.mem_erase_of_ne ?_).mpr hmem', hreq⟩
      intro heq
      exact hne (congrArg Prod.fst heq)
  · -- the entry of the request goes from both lists
    have hcons : (L.map Prod.snd).Perm ((id, op) :: (L.erase (rid, id, op)).map Prod.snd) :=
      (List.perm_cons_erase hmem).map Prod.snd
    have herase := (hperm.trans hcons).erase (id, op)
    rw [List.erase_cons_head] at herase
    exact herase

end Relation

/-- A `Call` has returned whose handler has been started and has yet to run. -/
def State.Overdue {Name : Type} (s : State Name) : Prop :=
  ∃ rid q rep, s.rpc.req rid = some q ∧ q.call = .returned rep ∧ q.handler ≠ .absent ∧ s.ran rid = none

/-- The executions that nobody waits for. -/
def isLate : KvSrv.Event → Bool
  | .serveLate _ _ _ => true
  | _ => false

/-! ## The service on `labrpc` is `net` -/

section Refinement

variable {Name : Type} [DecidableEq Name] {w : Wire} {s s' : State Name} {e : Event Name} {t : KvSrv.State}

/-- What a step of the system is in `net`: no step at all, or one of which the same is seen. A `Call` that returned
false is a dropped request if its handler was never started, a lost reply if it has run, and otherwise a request that
is left to run late; and it runs late only then. -/
theorem Rel.step (h : Rel w s t) (hstep : Step w s e s') :
    (seen e = none ∧ Rel w s' t) ∨
    ∃ e' t', KvSrv.Step t e' t' ∧ Rel w s' t' ∧ seenNet e' = seen e ∧ (isLate e' = true → s.Overdue) := by
  cases hstep with
  | @invoke c op rid endname hc hnew =>
      right
      have hidle : s.Idle c := by
        intro k q hk
        cases hc.symm.trans hk
      have hcall : t.calls c = none := by
        rw [h.calls c, hc]
        rfl
      obtain ⟨L, hL, hperm⟩ := h.late
      have hinvoke : KvSrv.Step t (.invoke c t.nextId op) _ := KvSrv.Step.invoke hcall
      rw [h.nextId] at hinvoke
      refine ⟨_, _, hinvoke, ?_, rfl, fun hlate => by cases hlate⟩
      refine h.attempt (k := ⟨s.nextId, op, false, rid⟩) hnew hidle endname rfl rfl rfl hL ?_ hperm
      intro k q hk
      cases hc.symm.trans hk
  | @resend c k q rep rid endname hc hq hcall hfail hnew =>
      right
      have hidle : s.Idle c := by
        intro k' q' hk' hq'
        obtain rfl : k = k' := Option.some.inj (hc.symm.trans hk')
        obtain rfl : q = q' := Option.some.inj (hq.symm.trans hq')
        exact ⟨rep, hcall⟩
      have hnet := h.call_of hc
      obtain ⟨L, hL, hperm⟩ := h.late
      cases hran : s.ran k.cur with
      | some r =>
          rw [hran] at hnet
          refine ⟨_, _, KvSrv.Step.lose hnet rfl, ?_, rfl, fun hlate => by cases hlate⟩
          refine h.attempt (k := { k with retried := true, cur := rid }) hnew hidle endname rfl h.nextId rfl hL ?_ hperm
          intro k' q' hk' _ _ hnone
          obtain rfl : k = k' := Option.some.inj (hc.symm.trans hk')
          cases hran.symm.trans hnone
      | none =>
          rw [hran] at hnet
          by_cases habsent : q.handler = .absent
          · refine ⟨_, _, KvSrv.Step.drop hnet rfl, ?_, rfl, fun hlate => by cases hlate⟩
            refine h.attempt (k := { k with retried := true, cur := rid }) hnew hidle endname rfl h.nextId rfl hL ?_
              hperm
            intro k' q' hk' hq' hpresent
            obtain rfl : k = k' := Option.some.inj (hc.symm.trans hk')
            obtain rfl : q = q' := Option.some.inj (hq.symm.trans hq')
            exact absurd habsent hpresent
          · refine ⟨_, _, KvSrv.Step.abandon hnet rfl, ?_, rfl, fun hlate => by cases hlate⟩
            obtain ⟨p, hp, hmeth, hargs⟩ := h.inv.current c k hc
            have hlisted : Listed w s ((k.cur, k.id, k.op) :: L) := by
              intro i p hp hhandler hnone hleft
              obtain ⟨id, op, hmem, hop⟩ := hL i p hp hhandler hnone hleft
              exact ⟨id, op, List.mem_cons_of_mem _ hmem, hop⟩
            refine h.attempt (k := { k with retried := true, cur := rid }) hnew hidle endname rfl h.nextId rfl hlisted
              ?_ (hperm.cons _)
            intro k' q' hk' hq' _ _
            obtain rfl : k = k' := Option.some.inj (hc.symm.trans hk')
            obtain rfl : p = q' := Option.some.inj (hp.symm.trans hq')
            refine ⟨k.id, k.op, List.mem_cons_self .., ?_⟩
            rw [hmeth, hargs]
            exact request_args w k.op
  | @ret c k q rep r hc hq hcall hok hread =>
      right
      have hidle : s.Idle c := by
        intro k' q' hk' hq'
        obtain rfl : k = k' := Option.some.inj (hc.symm.trans hk')
        obtain rfl : q = q' := Option.some.inj (hq.symm.trans hq')
        exact ⟨rep, hcall⟩
      -- what the Clerk reads is what the handler replied to it
      have hreq := h.inv.reqs k.cur q hq
      obtain ⟨r₀, hran, hbytes⟩ := hreq.reply hcall hok
      obtain ⟨op, hop, hkv⟩ := hreq.op
      obtain ⟨kv, rfl⟩ := hkv r₀ hran
      obtain rfl : op = k.op := by
        obtain ⟨p, hp, hmeth, hargs⟩ := h.inv.current c k hc
        obtain rfl : q = p := Option.some.inj (hq.symm.trans hp)
        rw [hmeth, hargs, request_args] at hop
        exact (Option.some.inj hop).symm
      rw [hbytes, readReply_dispatch] at hread
      obtain rfl := Option.some.inj hread
      have hnet := h.call_of hc
      rw [hran] at hnet
      exact ⟨_, _, KvSrv.Step.ret hnet rfl, h.ret hidle hc hran, rfl, fun hlate => by cases hlate⟩
  | @req rid q a q' hq hreq hother =>
      exact Or.inl ⟨rfl, h.reqStep hq hreq fun r ha => absurd ha (hother r)⟩
  | @table a hone => exact Or.inl ⟨rfl, h.table a⟩
  | @run rid q op hq hstarted hran hop =>
      right
      by_cases hcur : s.Current rid
      · obtain ⟨c, k, hc, hk⟩ := hcur
        obtain ⟨t', hserve, hrel⟩ := h.runCurrent hq hstarted hran hop hc hk
        exact ⟨_, t', hserve, hrel, rfl, fun hlate => by cases hlate⟩
      · obtain ⟨id, t', hserve, hrel⟩ := h.runLate hq hstarted hran hop hcur
        obtain ⟨rep, hcall⟩ := h.inv.left rid q hq hcur
        exact ⟨_, t', hserve, hrel, rfl, fun _ => ⟨rid, q, rep, hq, hcall, ne_absent hstarted, hran⟩⟩
  | @answer rid q q' r hq hran hreq =>
      left
      refine ⟨rfl, h.reqStep hq hreq ?_⟩
      intro r' heq _
      cases heq
      exact ⟨r, hran, rfl⟩
  | @fail rid q q' hq hreq =>
      left
      refine ⟨rfl, h.reqStep hq hreq ?_⟩
      intro r' heq hok
      cases heq
      cases hok

/-- `net` follows the service on `labrpc`. -/
def followed (Name : Type) [DecidableEq Name] (w : Wire) :
    Simulation (onLabRpc Name w) net seen seenNet where
  rel := Rel w
  init := rel_init w
  step := by
    intro s e s' t hrel hstep
    rcases hrel.step hstep with ⟨hnone, hrel'⟩ | ⟨e', t', hnet, hrel', hseen, -⟩
    · rw [hnone]
      exact ⟨[], t, Run.nil, hrel', rfl⟩
    · rw [← hseen]
      exact ⟨[e'], t', Run.single hnet, hrel', filterMap_snoc seenNet [] e'⟩

/-- **The service on `labrpc` is `net`.** Whatever the network does and whatever is done to its tables, the calls and
returns of the Clerks and the executions at the server, in their order and with their replies, are those of a run of
`net`. -/
theorem labRpc_refines_net (Name : Type) [DecidableEq Name] (w : Wire) :
    (onLabRpc Name w).traces seen ⊆ net.traces seenNet :=
  (followed Name w).traces

end Refinement

end OnLabRpc
end KvSrv
end DistributedLabs
