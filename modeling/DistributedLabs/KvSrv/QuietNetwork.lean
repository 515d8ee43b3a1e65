import DistributedLabs.KvSrv.Linearizable
import DistributedLabs.KvSrv.OnLabRpc
import DistributedLabs.Lib.Stream

/-!
# `KvSrv.QuietNetwork` — where the network stays connected

A late execution needs a disconnection: as long as no end is disabled, no server removed and no connection to a daemon
lost, a `Call` does not return before the handler of its request has run, if that was started at all. On such a
network the runs of the service are runs of `net` without late executions, and the calls of the Clerks are linearizable
(`labRpc_linearizable`), whatever is dropped, delayed and reordered.

`Calm` is what a quiet run keeps, on top of the invariant of `KvSrv.OnLabRpc`: the server that a request was given is
still there, so `processReq` waits for the handler and does not give up (`Calm.not_overdue`). The simulation of
`KvSrv.OnLabRpc` then never needs a `serveLate` (`followedQuietly`), and what is left is to carry the linearization of
`net` back: histories and applied Puts are read off what is seen, which is the same on both sides.

The module ends with a run on a network that drops messages: a reply is lost, the Clerk resends and comes back with
`ErrMaybe`, while a second Clerk reads the value. The requests go through a lemma each (`served_run`, `dropped_run`,
`answered_run`) that holds on any connected network.
-/

namespace DistributedLabs
namespace KvSrv
namespace OnLabRpc

open Lib
open LabRpc (ReqId ServerId Bytes ReqAction TableAction Req Tables)

/-! ## Histories -/

/-- What the history has of what is seen. -/
def Seen.hist : Seen → Option (HEvent Op Reply)
  | .call _ id op => some (.inv id op)
  | .exec _ _ => none
  | .result _ id _ r => some (.res id r)

/-- The Put that an execution has applied. -/
def Seen.applied : Seen → Option PutArgs
  | .exec op r => appliedPut op r
  | _ => none

/-- The calls and returns of the Clerks. -/
def history {Name : Type} (tr : List (Event Name)) : List (HEvent Op Reply) :=
  (tr.filterMap seen).filterMap Seen.hist

/-- The Puts applied on one key. -/
def appliedOn {Name : Type} (tr : List (Event Name)) (key : String) : List PutArgs :=
  ((tr.filterMap seen).filterMap Seen.applied).filter (fun args => args.key = key)

theorem history_seenNet (tr : List KvSrv.Event) : (tr.filterMap seenNet).filterMap Seen.hist = KvSrv.history tr := by
  rw [List.filterMap_filterMap]
  unfold KvSrv.history
  congr 1
  funext e
  cases e <;> rfl

theorem applied_seenNet (tr : List KvSrv.Event) :
    (tr.filterMap seenNet).filterMap Seen.applied = (applied tr).map Prod.snd := by
  unfold applied
  rw [List.filterMap_filterMap, List.map_filterMap]
  congr 1
  funext e
  cases e with
  | serve c id op r =>
      show appliedPut op r = ((appliedPut op r).map (fun args => (id, args))).map Prod.snd
      cases appliedPut op r <;> rfl
  | serveLate id op r =>
      show appliedPut op r = ((appliedPut op r).map (fun args => (id, args))).map Prod.snd
      cases appliedPut op r <;> rfl
  | _ => rfl

theorem appliedOn_seenNet (tr : List KvSrv.Event) (key : String) :
    ((tr.filterMap seenNet).filterMap Seen.applied).filter (fun args => args.key = key) =
      (KvSrv.appliedOn tr key).map Prod.snd := by
  rw [applied_seenNet, List.filter_map]
  rfl

section Refinement

variable {Name : Type} [DecidableEq Name] {w : Wire} {s s' : State Name} {e : Event Name} {t : KvSrv.State}

/-! ## Without disconnections -/

/-- No end is disabled, no server removed, no connection to a daemon lost. -/
def quiet : Event Name → Bool
  | .fail _ => false
  | .table (.deleteServer _) => false
  | .table (.enable _ enabled) => enabled
  | _ => true

/-- The server that an admitted request was given is there still, and a handler that was started has run, or
`processReq` waits for it. -/
structure Calm (s : State Name) : Prop where
  one : ∀ servername rs, s.rpc.rn.servers servername = some rs → rs = kvsrv
  steady : ∀ rid q info, s.rpc.req rid = some q → q.proc = .admitted info ∨ q.proc = .waiting info →
    s.rpc.rn.enabled q.endname = true ∧ s.rpc.rn.servers info.servername = some info.server
  answered : ∀ rid q server r, s.rpc.req rid = some q → q.handler = .returned server r → s.ran rid ≠ none
  awaited : ∀ rid q, s.rpc.req rid = some q → q.handler ≠ .absent → q.proc.isWaiting = true ∨ s.ran rid ≠ none

theorem calm_init (w : Wire) : Calm (onLabRpc Name w).init := by
  refine ⟨?_, ?_, ?_, ?_⟩
  · intro servername rs hrs
    cases hrs
  · intro rid q info hq
    cases hq
  · intro rid q server r hq
    cases hq
  · intro rid q hq
    cases hq

omit [DecidableEq Name] in
/-- A new request has not been admitted yet. -/
theorem Calm.attempt (h : Calm s) (c : ClientId) (k : Clerk) (endname : Name) (nextId : Nat) :
    Calm (s.attempt w c k endname nextId) := by
  refine ⟨h.one, ?_, ?_, ?_⟩
  · intro i p info hp hproc
    rcases update_cases hp with ⟨rfl, heq⟩ | ⟨_, hp⟩
    · obtain rfl := Option.some.inj heq
      rcases hproc with hproc | hproc <;> cases hproc
    · exact h.steady i p info hp hproc
  · intro i p server r hp hhandler
    rcases update_cases hp with ⟨rfl, heq⟩ | ⟨_, hp⟩
    · obtain rfl := Option.some.inj heq
      cases hhandler
    · exact h.answered i p server r hp hhandler
  · intro i p hp hpresent
    rcases update_cases hp with ⟨rfl, heq⟩ | ⟨_, hp⟩
    · obtain rfl := Option.some.inj heq
      exact absurd rfl hpresent
    · exact h.awaited i p hp hpresent

/-- A change of the tables that is quiet takes no end and no server away. -/
theorem Calm.table (h : Calm s) {a : TableAction Name} (hquiet : quiet (.table a) = true)
    (hone : ∀ servername rs, a = .addServer servername rs → rs = kvsrv) :
    Calm { s with rpc := { s.rpc with rn := s.rpc.rn.apply a } } := by
  refine ⟨?_, ?_, h.answered, h.awaited⟩
  · intro servername rs hrs
    cases a with
    -- the only change to the servers that is quiet: a server is added, and that is the one there is
    | addServer servername' rs' =>
        rcases update_cases hrs with ⟨_, heq⟩ | ⟨_, hrs⟩
        · rw [← Option.some.inj heq]
          exact hone _ _ rfl
        · exact h.one servername rs hrs
    | deleteServer servername' => cases hquiet
    | connect endname servername' => exact h.one servername rs hrs
    | enable endname enabled => exact h.one servername rs hrs
    | setReliable yes => exact h.one servername rs hrs
    | setLongReordering yes => exact h.one servername rs hrs
    | cleanup => exact h.one servername rs hrs
  · intro rid q info hq hproc
    obtain ⟨henabled, hserver⟩ := h.steady rid q info hq hproc
    cases a with
    | addServer servername' rs' =>
        refine ⟨henabled, ?_⟩
        show Function.update s.rpc.rn.servers servername' (some rs') info.servername = _
        by_cases hname : info.servername = servername'
        · rw [hname, Function.update_self, hone _ _ rfl, h.one _ _ hserver]
        · rw [Function.update_of_ne hname]
          exact hserver
    | deleteServer servername' => cases hquiet
    | enable endname enabled =>
        refine ⟨?_, hserver⟩
        obtain rfl : enabled = true := hquiet
        show Function.update s.rpc.rn.enabled endname true q.endname = true
        by_cases hname : q.endname = endname
        · rw [hname, Function.update_self]
        · rw [Function.update_of_ne hname]
          exact henabled
    | connect endname servername' => exact ⟨henabled, hserver⟩
    | setReliable yes => exact ⟨henabled, hserver⟩
    | setLongReordering yes => exact ⟨henabled, hserver⟩
    | cleanup => exact ⟨henabled, hserver⟩

section OneRequest

variable {rid : ReqId} {q q' : Req Name} {a : ReqAction}

omit [DecidableEq Name] in
/-- `steady`, for the request that moves. -/
theorem Calm.steady_step (h : Calm s) (hq : s.rpc.req rid = some q) (hstep : LabRpc.ReqStep s.rpc.rn q a q')
    {info : LabRpc.Info Name} (hproc : q'.proc = .admitted info ∨ q'.proc = .waiting info) :
    s.rpc.rn.enabled q'.endname = true ∧ s.rpc.rn.servers info.servername = some info.server := by
  cases hstep with
  | @read info' _ hinfo =>
      have heq : info' = info := by
        rcases hproc with hproc | hproc
        · exact LabRpc.Proc.admitted.inj hproc
        · cases hproc
      rw [heq] at hinfo
      obtain ⟨henabled, -, hserver⟩ := LabRpc.readEndnameInfo_some hinfo
      exact ⟨henabled, hserver⟩
  | @spawn info' hadmitted =>
      have heq : info' = info := by
        rcases hproc with hproc | hproc
        · cases hproc
        · exact LabRpc.Proc.waiting.inj hproc
      rw [heq] at hadmitted
      exact h.steady rid q info hq (Or.inl hadmitted)
  -- `processReq` stays where it is
  | refuse _ _ => exact h.steady rid q info hq hproc
  | dispatch _ => exact h.steady rid q info hq hproc
  | handlerReturns _ => exact h.steady rid q info hq hproc
  | poll _ _ => exact h.steady rid q info hq hproc
  | drain _ _ => exact h.steady rid q info hq hproc
  | fire _ _ => exact h.steady rid q info hq hproc
  -- or goes on to another point
  | _ => rcases hproc with hproc | hproc <;> cases hproc

omit [DecidableEq Name] in
/-- `awaited`, for the request that moves. -/
theorem Calm.awaited_step (h : Calm s) (hq : s.rpc.req rid = some q)
    (hstage : LabRpc.Stage (fun _ => True) (fun _ _ => True) q q.proc)
    (hstep : LabRpc.ReqStep s.rpc.rn q a q') (hpresent : q'.handler ≠ .absent) :
    q'.proc.isWaiting = true ∨ s.ran rid ≠ none := by
  have hran : ∀ {p}, q.proc = p → p.isWaiting = false → q.handler ≠ .absent → s.ran rid ≠ none := by
    intro p hproc hnot hhandler
    rcases h.awaited rid q hq hhandler with hwaiting | hran
    · rw [hproc, hnot] at hwaiting
      cases hwaiting
    · exact hran
  cases hstep with
  | accept hcall => exact Or.inr (hran (hstage.of_sending hcall).1 rfl hpresent)
  | refuse _ _ => exact h.awaited rid q hq hpresent
  | read hproc _ => exact Or.inr (hran hproc rfl hpresent)
  | readNone hproc _ => exact Or.inr (hran hproc rfl hpresent)
  | dropRequest hproc _ => exact Or.inr (hran hproc rfl hpresent)
  | spawn _ => exact Or.inl rfl
  | dispatch hspawned => exact h.awaited rid q hq (by simp [hspawned])
  | handlerReturns hrunning => exact h.awaited rid q hq (by simp [hrunning])
  | take _ hreturned => exact Or.inr (h.answered rid q _ _ hq hreturned)
  -- the poll finds the server alive as long as it is quiet
  | pollDead hwaiting hdead =>
      obtain ⟨henabled, hserver⟩ := h.steady rid q _ hq (Or.inr hwaiting)
      simp [Tables.isServerDead, henabled, hserver] at hdead
  | poll _ _ => exact h.awaited rid q hq hpresent
  | drain hreturned _ => exact h.awaited rid q hq (by simp [hreturned])
  | checkDead hproc _ => exact Or.inr (hran hproc rfl hpresent)
  | check hproc _ => exact Or.inr (hran hproc rfl hpresent)
  | checkGaveUp hproc => exact Or.inr (hran hproc rfl hpresent)
  | dropReply hproc _ => exact Or.inr (hran hproc rfl hpresent)
  | delayReply hproc _ => exact Or.inr (hran hproc rfl hpresent)
  | directReply hproc => exact Or.inr (hran hproc rfl hpresent)
  | reply hproc _ => exact Or.inr (hran hproc rfl hpresent)
  | fire _ _ => exact h.awaited rid q hq hpresent

omit [DecidableEq Name] in
/-- A request takes a step, and its handler has run if it returns. -/
theorem Calm.reqStep (h : Calm s) (hq : s.rpc.req rid = some q)
    (hstage : LabRpc.Stage (fun _ => True) (fun _ _ => True) q q.proc)
    (hstep : LabRpc.ReqStep s.rpc.rn q a q') (hreturns : ∀ r, a = .handlerReturns r → s.ran rid ≠ none) :
    Calm { s with rpc := s.rpc.setReq rid q' } := by
  refine ⟨h.one, ?_, ?_, ?_⟩
  · intro i p info hp hproc
    rcases update_cases hp with ⟨rfl, heq⟩ | ⟨_, hp⟩
    · obtain rfl := Option.some.inj heq
      exact h.steady_step hq hstep hproc
    · exact h.steady i p info hp hproc
  · intro i p server r hp hhandler
    rcases update_cases hp with ⟨rfl, heq⟩ | ⟨_, hp⟩
    · obtain rfl := Option.some.inj heq
      cases hstep with
      | handlerReturns _ => exact hreturns _ rfl
      | spawn _ => cases hhandler
      | dispatch _ => cases hhandler
      | take _ _ => cases hhandler
      | drain _ _ => cases hhandler
      | _ => exact h.answered i q server r hq hhandler
    · exact h.answered i p server r hp hhandler
  · intro i p hp hpresent
    rcases update_cases hp with ⟨rfl, heq⟩ | ⟨_, hp⟩
    · obtain rfl := Option.some.inj heq
      exact h.awaited_step hq hstage hstep hpresent
    · exact h.awaited i p hp hpresent

end OneRequest

/-- **A quiet step keeps the network calm.** -/
theorem Calm.step (h : Calm s) (hinv : Inv w s) (hstep : Step w s e s') (hquiet : quiet e = true) : Calm s' := by
  cases hstep with
  | @invoke c op rid endname _ _ => exact h.attempt (w := w) c ⟨s.nextId, op, false, rid⟩ endname _
  | @resend c k q rep rid endname _ _ _ _ _ =>
      exact h.attempt (w := w) c { k with retried := true, cur := rid } endname _
  | ret _ _ _ _ _ => exact ⟨h.one, h.steady, h.answered, h.awaited⟩
  | req hq hreq hother => exact h.reqStep hq (hinv.reqs _ _ hq).stage hreq fun r ha => absurd ha (hother r)
  | table hone => exact h.table hquiet hone
  | @run rid q op hq hstarted hran hop =>
      have hmore : ∀ i, s.ran i ≠ none → Function.update s.ran rid (some (s.kv.dispatch op).2) i ≠ none := by
        intro i hi hnone
        rcases update_cases hnone with ⟨_, heq⟩ | ⟨_, hnone⟩
        · cases heq
        · exact hi hnone
      refine ⟨h.one, h.steady, ?_, ?_⟩
      · exact fun i p server r hp hhandler => hmore i (h.answered i p server r hp hhandler)
      · exact fun i p hp hpresent => (h.awaited i p hp hpresent).imp_right (hmore i)
  | answer hq hran hreq =>
      refine h.reqStep hq (hinv.reqs _ _ hq).stage hreq fun _ _ hnone => ?_
      cases hran.symm.trans hnone
  | fail _ _ => cases hquiet

omit [DecidableEq Name] in
/-- While it is quiet, a `Call` does not return before its handler has run. -/
theorem Calm.not_overdue (h : Calm s) (hinv : Inv w s) : ¬ s.Overdue := by
  rintro ⟨rid, q, rep, hq, hcall, hpresent, hran⟩
  rcases h.awaited rid q hq hpresent with hwaiting | hsome
  · have hstage := (hinv.reqs rid q hq).stage
    cases hproc : q.proc with
    | waiting info =>
        rw [hproc] at hstage
        cases hstage with
        | waiting hopen _ _ => cases hcall.symm.trans hopen.1
    | _ =>
        rw [hproc] at hwaiting
        cases hwaiting
  · exact hsome hran

/-- While it is quiet, `net` follows without late executions. -/
def followedQuietly (Name : Type) [DecidableEq Name] (w : Wire) :
    Simulation ((onLabRpc Name w).restrict (fun e => quiet e = true)) (net.restrict (fun e => isLate e = false)) seen
      seenNet where
  rel := fun s t => Rel w s t ∧ Calm s
  init := ⟨rel_init w, calm_init w⟩
  step := by
    rintro s e s' t ⟨hrel, hcalm⟩ ⟨hstep, hquiet⟩
    have hcalm' := hcalm.step hrel.inv hstep hquiet
    rcases hrel.step hstep with ⟨hnone, hrel'⟩ | ⟨e', t', hnet, hrel', hseen, hlate⟩
    · rw [hnone]
      exact ⟨[], t, Run.nil, ⟨hrel', hcalm'⟩, rfl⟩
    · rw [← hseen]
      have hpunctual : isLate e' = false := by
        cases hl : isLate e' with
        | false => rfl
        | true => exact absurd (hlate hl) (hcalm.not_overdue hrel.inv)
      exact ⟨[e'], t', Run.single ⟨hnet, hpunctual⟩, ⟨hrel', hcalm'⟩, filterMap_snoc seenNet [] e'⟩

/-- **On `labrpc` the Clerks' calls are linearizable as long as it is quiet.** The network may still drop and delay
requests and replies and reorder them. -/
theorem labRpc_linearizable {tr : List (Event Name)} (hrun : Reaches (onLabRpc Name w) tr s)
    (hquiet : ∀ e ∈ tr, quiet e = true) (hfew : ∀ key, (appliedOn tr key).length ≤ 2 ^ 64) :
    Linearizable kvSpec Explains (history tr) := by
  obtain ⟨tr', t, hnet, -, hseen⟩ := (followedQuietly Name w).reaches (Run.restrict hrun hquiet)
  obtain ⟨hrun', hpunctual⟩ := Run.of_restrict hnet
  have hlate : LateFree tr' := by
    intro id op r hmem
    cases hpunctual _ hmem
  have hfew' : ∀ key, (KvSrv.appliedOn tr' key).length ≤ 2 ^ 64 := by
    intro key
    have hlen := congrArg List.length (appliedOn_seenNet tr' key)
    rw [List.length_map, hseen] at hlen
    rw [← hlen]
    exact hfew key
  obtain ⟨L, hL⟩ := exists_linOk hrun' hlate hfew'
  have hhist : KvSrv.history tr' = history tr := by
    rw [← history_seenNet, hseen]
    rfl
  rw [← hhist]
  exact ⟨L, hL.lin⟩

end Refinement

/-! ## A call that goes through -/

instance encodableErr : Encodable Err :=
  Encodable.encodableOfList [.OK, .ErrNoKey, .ErrVersion, .ErrMaybe, .ErrWrongLeader, .ErrWrongGroup] (by
    intro err
    cases err <;> simp)

instance encodableGetArgs : Encodable GetArgs := Encodable.ofLeftInverse GetArgs.key GetArgs.mk (fun _ => rfl)

instance encodablePutArgs : Encodable PutArgs :=
  Encodable.ofLeftInverse (fun a => (a.key, a.value, a.version)) (fun p => ⟨p.1, p.2.1, p.2.2⟩) (fun _ => rfl)

instance encodableGetReply : Encodable GetReply :=
  Encodable.ofLeftInverse (fun r => (r.value, r.version, r.err)) (fun p => ⟨p.1, p.2.1, p.2.2⟩) (fun _ => rfl)

instance encodablePutReply : Encodable PutReply := Encodable.ofLeftInverse PutReply.err PutReply.mk (fun _ => rfl)

/-- An encoding as a number, in strokes. -/
def plainGob (α : Type) [Encodable α] : Gob α := ⟨unary, readUnary α, readUnary_unary⟩

/-- The messages as numbers. -/
def plainWire : Wire := ⟨plainGob GetArgs, plainGob PutArgs, plainGob GetReply, plainGob PutReply⟩

section Attempts

variable {Name : Type} [DecidableEq Name] {w : Wire} {s : State Name} {rid : ReqId} {op : Op} {endname : Name}
  {info : LabRpc.Info Name} {kv : KVServer} {r : Reply}

/-- The handler of the request `rid` has replied `r`, which left the server at `kv`; `Call` and `processReq` are at
`call` and `proc`. -/
def State.served (w : Wire) (s : State Name) (rid : ReqId) (op : Op) (endname : Name) (server : ServerId)
    (kv : KVServer) (r : Reply) (call : LabRpc.CallPc) (proc : LabRpc.Proc Name) : State Name :=
  { s with
    rpc := s.rpc.setReq rid
      { newReq w op endname with call := call, proc := proc, handler := .taken server ⟨true, w.reply r⟩ }
    kv := kv
    ran := Function.update s.ran rid (some r) }

/-- The way of a request to its handler and of the reply back to `processReq`. -/
def servedTrace (w : Wire) (rid : ReqId) (op : Op) (info : LabRpc.Info Name) (r : Reply) : List (Event Name) :=
  [.req rid .accept, .req rid .read, .req rid .spawn, .req rid (.dispatch info.server (svcMeth op) (w.args op)),
    .run rid op r, .answer rid, .req rid .take, .req rid .check]

/-- On a connected network a new request can be served. -/
theorem served_run (hreq : s.rpc.req rid = some (newReq w op endname))
    (hinfo : s.rpc.rn.readEndnameInfo endname = some info) (hran : s.ran rid = none)
    (hkv : s.kv.dispatch op = (kv, r)) :
    Run (onLabRpc Name w) s (servedTrace w rid op info r)
      (s.served w rid op endname info.server kv r .waiting (.alive info ⟨true, w.reply r⟩)) := by
  obtain ⟨henabled, -, hserver⟩ := LabRpc.readEndnameInfo_some hinfo
  have halive : s.rpc.rn.isServerDead endname info.servername info.server = false := by
    simp [Tables.isServerDead, henabled, hserver]
  have haccept := (Run.nil (T := onLabRpc Name w)).snoc (Step.req hreq (.accept rfl) fun _ h => by cases h)
  have hread := haccept.snoc (Step.req LabRpc.State.setReq_self (.read rfl hinfo) fun _ h => by cases h)
  have hspawn := hread.snoc (Step.req LabRpc.State.setReq_self (.spawn rfl) fun _ h => by cases h)
  have hdispatch := hspawn.snoc (Step.req LabRpc.State.setReq_self (.dispatch rfl) fun _ h => by cases h)
  have hrun := hdispatch.snoc (Step.run LabRpc.State.setReq_self rfl hran (request_args w op))
  have hanswer := hrun.snoc
    (Step.answer LabRpc.State.setReq_self (Function.update_self ..) (.handlerReturns rfl))
  have htake := hanswer.snoc (Step.req LabRpc.State.setReq_self (.take rfl rfl) fun _ h => by cases h)
  have hcheck := htake.snoc (Step.req LabRpc.State.setReq_self (.check rfl halive) fun _ h => by cases h)
  simp only [LabRpc.State.setReq_setReq, hkv] at hcheck
  exact hcheck

/-- The reply of a served request can be lost: `Call` returns false although the handler has run. -/
theorem dropped_run (rid : ReqId) (info : LabRpc.Info Name) (hreq : s.rpc.req rid = some (newReq w op endname))
    (hinfo : s.rpc.rn.readEndnameInfo endname = some info) (hlossy : info.reliable = false) (hran : s.ran rid = none)
    (hkv : s.kv.dispatch op = (kv, r)) :
    Run (onLabRpc Name w) s (servedTrace w rid op info r ++ [.req rid .dropReply, .req rid (.reply LabRpc.noReply)])
      (s.served w rid op endname info.server kv r (.returned LabRpc.noReply) .ended) := by
  have hdrop := (served_run hreq hinfo hran hkv).snoc
    (Step.req LabRpc.State.setReq_self (.dropReply rfl hlossy) fun _ h => by cases h)
  have hreply := hdrop.snoc (Step.req LabRpc.State.setReq_self (.reply rfl rfl) fun _ h => by cases h)
  simp only [State.served, LabRpc.State.setReq_setReq, List.append_assoc] at hreply
  exact hreply

/-- The reply of a served request can reach `Call`. -/
theorem answered_run (rid : ReqId) (info : LabRpc.Info Name) (hreq : s.rpc.req rid = some (newReq w op endname))
    (hinfo : s.rpc.rn.readEndnameInfo endname = some info) (hran : s.ran rid = none)
    (hkv : s.kv.dispatch op = (kv, r)) :
    Run (onLabRpc Name w) s
      (servedTrace w rid op info r ++ [.req rid .directReply, .req rid (.reply ⟨true, w.reply r⟩)])
      (s.served w rid op endname info.server kv r (.returned ⟨true, w.reply r⟩) .ended) := by
  have hdirect := (served_run hreq hinfo hran hkv).snoc
    (Step.req LabRpc.State.setReq_self (.directReply rfl) fun _ h => by cases h)
  have hreply := hdirect.snoc (Step.req LabRpc.State.setReq_self (.reply rfl rfl) fun _ h => by cases h)
  simp only [State.served, LabRpc.State.setReq_setReq, List.append_assoc] at hreply
  exact hreply

end Attempts

/-! ## A reply is lost -/

/-- The Put that creates the key. -/
def firstPut : PutArgs := ⟨"k", "v", 0⟩

/-- The server when that has been applied. -/
def afterPut : KVServer := (makeKVServer.dispatch (.put firstPut)).1

theorem afterPut_put : afterPut.dispatch (.put firstPut) = (afterPut, .put ⟨.ErrVersion⟩) := by
  rfl

theorem afterPut_get : afterPut.dispatch (.get ⟨"k"⟩) = (afterPut, .get ⟨"v", 1, .OK⟩) := by
  rfl

/-- The one end, connected to the server on a network that drops messages. -/
def oneEnd : List (Event Unit) :=
  [.table (.addServer () kvsrv), .table (.connect () (some ())), .table (.enable () true), .table (.setReliable false)]

/-- What `processReq` reads in the tables for that end. -/
def oneEndInfo : LabRpc.Info Unit := ⟨(), kvsrv, false, false⟩

/-- A `Put` is executed and its reply dropped; the Clerk's second attempt finds the key there. Meanwhile a second Clerk
gets the value. -/
def resentTrace (w : Wire) : List (Event Unit) :=
  oneEnd ++ [.invoke 0 0 (.put firstPut) 0 ()] ++
    (servedTrace w 0 (.put firstPut) oneEndInfo (.put ⟨.OK⟩) ++ [.req 0 .dropReply, .req 0 (.reply LabRpc.noReply)]) ++
    [.invoke 1 1 (.get ⟨"k"⟩) 1 ()] ++ [.resend 0 2 ()] ++
    (servedTrace w 2 (.put firstPut) oneEndInfo (.put ⟨.ErrVersion⟩) ++
      [.req 2 .directReply, .req 2 (.reply ⟨true, w.reply (.put ⟨.ErrVersion⟩)⟩)]) ++
    [.ret 0 0 (.put firstPut) (.put ⟨.ErrMaybe⟩)] ++
    (servedTrace w 1 (.get ⟨"k"⟩) oneEndInfo (.get ⟨"v", 1, .OK⟩) ++
      [.req 1 .directReply, .req 1 (.reply ⟨true, w.reply (.get ⟨"v", 1, .OK⟩)⟩)]) ++
    [.ret 1 1 (.get ⟨"k"⟩) (.get ⟨"v", 1, .OK⟩)]

/-- The run is one of the service on `labrpc`. -/
theorem resent_run (w : Wire) : ∃ s, Reaches (onLabRpc Unit w) (resentTrace w) s := by
  have hserver : Reaches (onLabRpc Unit w) [.table (.addServer () kvsrv)] _ :=
    Run.nil.snoc (Step.table fun _ _ h => by cases h; rfl)
  have hconnect := hserver.snoc (e := (.table (.connect () (some ())) : Event Unit))
    (Step.table fun _ _ h => by cases h)
  have henable := hconnect.snoc (e := (.table (.enable () true) : Event Unit)) (Step.table fun _ _ h => by cases h)
  have hlossy := henable.snoc (e := (.table (.setReliable false) : Event Unit)) (Step.table fun _ _ h => by cases h)
  have hinvoke := hlossy.snoc (e := (.invoke 0 0 (.put firstPut) 0 () : Event Unit)) (Step.invoke rfl rfl)
  have hlost := hinvoke.append (dropped_run 0 oneEndInfo rfl rfl rfl rfl rfl)
  have hsecond := hlost.snoc (e := (.invoke 1 1 (.get ⟨"k"⟩) 1 () : Event Unit)) (Step.invoke rfl rfl)
  have hresend := hsecond.snoc (e := (.resend 0 2 () : Event Unit)) (Step.resend rfl rfl rfl rfl rfl)
  have hagain := hresend.append (answered_run 2 oneEndInfo rfl rfl rfl afterPut_put)
  have hmaybe := hagain.snoc (Step.ret (c := 0) (k := ⟨0, .put firstPut, true, 2⟩) rfl rfl rfl rfl
    (readReply_dispatch w afterPut (.put firstPut)))
  have hget := hmaybe.append (answered_run 1 oneEndInfo rfl rfl rfl afterPut_get)
  have hvalue := hget.snoc (Step.ret (c := 1) (k := ⟨1, .get ⟨"k"⟩, false, 1⟩) rfl rfl rfl rfl
    (readReply_dispatch w afterPut (.get ⟨"k"⟩)))
  exact ⟨_, hvalue⟩

theorem labRpc_linearizable_resent : ∃ s, Reaches (onLabRpc Unit plainWire) (resentTrace plainWire) s ∧
    (∀ e ∈ resentTrace plainWire, quiet e = true) ∧
    history (resentTrace plainWire) = [.inv 0 (.put firstPut), .inv 1 (.get ⟨"k"⟩), .res 0 (.put ⟨.ErrMaybe⟩),
      .res 1 (.get ⟨"v", 1, .OK⟩)] ∧
    Linearizable kvSpec Explains (history (resentTrace plainWire)) := by
  obtain ⟨s, hrun⟩ := resent_run plainWire
  have hquiet : ∀ e ∈ resentTrace plainWire, quiet e = true := by
    simp [resentTrace, oneEnd, servedTrace, quiet]
  refine ⟨s, hrun, hquiet, rfl, labRpc_linearizable hrun hquiet ?_⟩
  intro key
  calc (appliedOn (resentTrace plainWire) key).length ≤ [firstPut].length := List.length_filter_le _ _
    _ ≤ 2 ^ 64 := by decide

end OnLabRpc
end KvSrv
end DistributedLabs
