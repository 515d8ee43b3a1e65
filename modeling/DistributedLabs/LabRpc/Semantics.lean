import DistributedLabs.LabRpc.Network

/-!
# `LabRpc.Semantics` — what a `Call` can rely on

A request is answered once, its handler runs at most once, and a `Call` that returns true has the reply of that
one execution, by an instance that was still registered after the handler had returned.

What a request did is the list of its actions in the trace: its executions, their results and the replies can be
read off the request (`executed_step`, `results_step`, `replied_step`), and `Stage` says what is known at each
point of `processReq`. All this is about one request alone, and needs nothing of the rest of the system but the
answers of `readEndnameInfo` and `isServerDead`. What those answers say about the tables, at the moment they were
read, is kept as `Once`; steps of other requests and changes of the tables only make the run longer.

`call_semantics` has the four guarantees. What is not among them: that a handler runs at all, that a `Call` returns
(`processReq` may wait for a handler that does not), and that a `Call` that returns false has not been executed. It may
have been, or may still be: that is what the Clerks of `KvSrv.Network` have to live with.

The order of the argument: `Stage.step` is one step of one request, `ReqOk.step` the same with what the trace has of it,
`ReqOk.frame` a step of somebody else, `entries_step` one step of the system, `reqOk_of_reaches` a whole run.
-/

namespace DistributedLabs
namespace LabRpc

open Lib

variable {Name : Type}

/-! ## What a request did -/

/-- The action of a request that an event is, if it is one. -/
def Event.action (id : ReqId) : Event Name → Option ReqAction
  | .req i a => if i = id then some a else none
  | _ => none

/-- What a request did in a run. -/
def actions (tr : List (Event Name)) (id : ReqId) : List ReqAction := tr.filterMap (Event.action id)

/-- The calls made under a number. -/
def Event.called (id : ReqId) : Event Name → Option (Name × String × Bytes)
  | .call i endname svcMeth args => if i = id then some (endname, svcMeth, args) else none
  | _ => none

/-- The calls made under a number in a run. -/
def calls (tr : List (Event Name)) (id : ReqId) : List (Name × String × Bytes) :=
  tr.filterMap (Event.called id)

/-- The messages sent on the reply channel of a request, by `processReq` or its timer. -/
def ReqAction.sent : ReqAction → Option ReplyMsg
  | .reply rep => some rep
  | .fire rep => some rep
  | _ => none

/-- The replies that were sent. -/
def replies (acts : List ReqAction) : List ReplyMsg := acts.filterMap ReqAction.sent

/-- The executions of the handler: on which instance, and with what. -/
def ReqAction.executed : ReqAction → Option (ServerId × String × Bytes)
  | .dispatch server svcMeth args => some (server, svcMeth, args)
  | _ => none

/-- The executions of the handler. -/
def executions (acts : List ReqAction) : List (ServerId × String × Bytes) :=
  acts.filterMap ReqAction.executed

/-- What executions of the handler produced. -/
def ReqAction.produced : ReqAction → Option ReplyMsg
  | .handlerReturns r => some r
  | _ => none

/-- What they produced. -/
def results (acts : List ReqAction) : List ReplyMsg := acts.filterMap ReqAction.produced

section Traces

variable {tr : List (Event Name)} {e : Event Name} {id : ReqId}

theorem actions_snoc_none (h : e.action id = none) : actions (tr ++ [e]) id = actions tr id :=
  filterMap_snoc_none h

theorem calls_snoc_none (h : e.called id = none) : calls (tr ++ [e]) id = calls tr id :=
  filterMap_snoc_none h

theorem actions_snoc_req {a : ReqAction} : actions (tr ++ [.req id a]) id = actions tr id ++ [a] := by
  have haction : Event.action id (.req id a : Event Name) = some a := if_pos rfl
  rw [actions, filterMap_snoc, haction]
  rfl

theorem calls_snoc_call {endname : Name} {svcMeth : String} {args : Bytes} :
    calls (tr ++ [.call id endname svcMeth args]) id = calls tr id ++ [(endname, svcMeth, args)] := by
  have hcalled : Event.called id (.call id endname svcMeth args) = some (endname, svcMeth, args) := if_pos rfl
  rw [calls, filterMap_snoc, hcalled]
  rfl

end Traces

/-! ## One request -/

/-- The instance a handler was started on. -/
def Handler.server : Handler → Option ServerId
  | .absent => none
  | .spawned server => some server
  | .running server => some server
  | .returned server _ => some server
  | .taken server _ => some server

/-- The request has been accepted and not been answered, and no timer will answer it. -/
def Req.Unanswered (q : Req Name) : Prop := q.call = .waiting ∧ q.timer = none

section Stages

-- what `readEndnameInfo` was seen to return, and of which instances `isServerDead` was seen to say no with the
-- handler's reply at hand
variable (Read : Info Name → Prop) (Alive : Info Name → ReplyMsg → Prop)

/-- A message that may be sent: a failure, or what the handler replied, if its instance was alive then. -/
inductive Earned (hd : Handler) : ReplyMsg → Prop where
  | failure {rep} : rep.ok = false → Earned hd rep
  | served {info rep} : Read info → hd = .taken info.server rep → Alive info rep → Earned hd rep

/-- What is known at a point of `processReq`. -/
inductive Stage (q : Req Name) : Proc Name → Prop where
  | idle : (∀ rep, q.call = .returned rep → rep.ok = false) → q.timer = none → q.handler.server = none →
      Stage q .idle
  | start : q.Unanswered → q.handler.server = none → Stage q .start
  | admitted {info} : q.Unanswered → q.handler.server = none → Read info → Stage q (.admitted info)
  | waiting {info} : q.Unanswered → q.handler.server = some info.server → Read info → Stage q (.waiting info)
  | replied {info r} : q.Unanswered → q.handler = .taken info.server r → Read info →
      Stage q (.replied info r)
  | gaveUp {info} : q.Unanswered → Stage q (.gaveUp info)
  | alive {info r} : q.Unanswered → q.handler = .taken info.server r → Read info → Alive info r →
      Stage q (.alive info r)
  | sending {rep} : q.Unanswered → Earned Read Alive q.handler rep → Stage q (.sending rep)
  | timed {rep} : q.call = .waiting → q.timer = some rep → Earned Read Alive q.handler rep → Stage q .ended
  | answered {rep} : q.call = .returned rep → q.timer = none → Earned Read Alive q.handler rep → Stage q .ended

end Stages

section Step

variable {Read : Info Name → Prop} {Alive : Info Name → ReplyMsg → Prop} {q q' : Req Name}

/-- What was seen of the tables may become more. -/
theorem Stage.mono {Read' : Info Name → Prop} {Alive' : Info Name → ReplyMsg → Prop} {p : Proc Name}
    (h : Stage Read Alive q p) (hread : ∀ info, Read info → Read' info)
    (halive : ∀ info r, Alive info r → Alive' info r) : Stage Read' Alive' q p := by
  have hearned : ∀ {rep}, Earned Read Alive q.handler rep → Earned Read' Alive' q.handler rep := by
    intro rep hrep
    cases hrep with
    | failure hok => exact .failure hok
    | served hinfo htaken hal => exact .served (hread _ hinfo) htaken (halive _ _ hal)
  cases h with
  | idle hcall htimer hnone => exact .idle hcall htimer hnone
  | start hopen hnone => exact .start hopen hnone
  | admitted hopen hnone hinfo => exact .admitted hopen hnone (hread _ hinfo)
  | waiting hopen hserver hinfo => exact .waiting hopen hserver (hread _ hinfo)
  | replied hopen htaken hinfo => exact .replied hopen htaken (hread _ hinfo)
  | gaveUp hopen => exact .gaveUp hopen
  | alive hopen htaken hinfo hal => exact .alive hopen htaken (hread _ hinfo) (halive _ _ hal)
  | sending hopen hrep => exact .sending hopen (hearned hrep)
  | timed hcall htimer hrep => exact .timed hcall htimer (hearned hrep)
  | answered hcall htimer hrep => exact .answered hcall htimer (hearned hrep)

/-- The handler's goroutine moves on; once its reply has been received there is nothing left for it to do. -/
theorem Stage.handler_moves {p : Proc Name} {hd : Handler} (h : Stage Read Alive q p)
    (hserver : hd.server = q.handler.server) (hleft : ∀ server r, q.handler ≠ .taken server r) :
    Stage Read Alive { q with handler := hd } p := by
  have hearned : ∀ {rep}, Earned Read Alive q.handler rep → Earned Read Alive hd rep := by
    intro rep hrep
    cases hrep with
    | failure hok => exact .failure hok
    | served _ htaken _ => exact absurd htaken (hleft _ _)
  cases h with
  | idle hcall htimer hnone => exact .idle hcall htimer (hserver.trans hnone)
  | start hopen hnone => exact .start hopen (hserver.trans hnone)
  | admitted hopen hnone hinfo => exact .admitted hopen (hserver.trans hnone) hinfo
  | waiting hopen hsome hinfo => exact .waiting hopen (hserver.trans hsome) hinfo
  | replied _ htaken _ => exact absurd htaken (hleft _ _)
  | gaveUp hopen => exact .gaveUp hopen
  | alive _ htaken _ _ => exact absurd htaken (hleft _ _)
  | sending hopen hrep => exact .sending hopen (hearned hrep)
  | timed hcall htimer hrep => exact .timed hcall htimer (hearned hrep)
  | answered hcall htimer hrep => exact .answered hcall htimer (hearned hrep)

/-- Before `processReq`, on the way, at the end with a timer to fire, or at the end for good. -/
theorem Stage.phase {p : Proc Name} (h : Stage Read Alive q p) :
    (p = .idle ∧ (∀ rep, q.call = .returned rep → rep.ok = false) ∧ q.timer = none ∧
      q.handler.server = none) ∨
    q.Unanswered ∨
    (p = .ended ∧ ∃ rep, q.call = .waiting ∧ q.timer = some rep ∧ Earned Read Alive q.handler rep) ∨
    (p = .ended ∧ ∃ rep, q.call = .returned rep ∧ q.timer = none ∧ Earned Read Alive q.handler rep) := by
  cases h with
  | idle hcall htimer hnone => exact Or.inl ⟨rfl, hcall, htimer, hnone⟩
  | start hopen _ => exact Or.inr (Or.inl hopen)
  | admitted hopen _ _ => exact Or.inr (Or.inl hopen)
  | waiting hopen _ _ => exact Or.inr (Or.inl hopen)
  | replied hopen _ _ => exact Or.inr (Or.inl hopen)
  | gaveUp hopen => exact Or.inr (Or.inl hopen)
  | alive hopen _ _ _ => exact Or.inr (Or.inl hopen)
  | sending hopen _ => exact Or.inr (Or.inl hopen)
  | timed hcall htimer hrep => exact Or.inr (Or.inr (Or.inl ⟨rfl, _, hcall, htimer, hrep⟩))
  | answered hcall htimer hrep => exact Or.inr (Or.inr (Or.inr ⟨rfl, _, hcall, htimer, hrep⟩))

/-- A request that is being sent has not got to `processReq`. -/
theorem Stage.of_sending (h : Stage Read Alive q q.proc) (hcall : q.call = .sending) :
    q.proc = .idle ∧ q.timer = none ∧ q.handler.server = none := by
  rcases h.phase with ⟨hidle, -, htimer, hnone⟩ | hopen | ⟨-, rep, hwait, -⟩ | ⟨-, rep, hret, -⟩
  · exact ⟨hidle, htimer, hnone⟩
  · cases hcall.symm.trans hopen.1
  · cases hcall.symm.trans hwait
  · cases hcall.symm.trans hret

/-- With a timer set, `processReq` has ended. -/
theorem Stage.of_timer {rep : ReplyMsg} (h : Stage Read Alive q q.proc) (htimer : q.timer = some rep) :
    q.proc = .ended ∧ Earned Read Alive q.handler rep := by
  rcases h.phase with ⟨-, -, hnone, -⟩ | hopen | ⟨hended, rep', -, hsome, hrep⟩ | ⟨-, rep', -, hnone, -⟩
  · cases htimer.symm.trans hnone
  · cases htimer.symm.trans hopen.2
  · obtain rfl : rep = rep' := Option.some.inj (htimer.symm.trans hsome)
    exact ⟨hended, hrep⟩
  · cases htimer.symm.trans hnone

/-- A reply that says yes and was returned by a `Call` was earned, by the handler. -/
theorem Stage.of_returned {rep : ReplyMsg} (h : Stage Read Alive q q.proc) (hcall : q.call = .returned rep)
    (hok : rep.ok = true) :
    q.proc = .ended ∧ ∃ info, Read info ∧ q.handler = .taken info.server rep ∧ Alive info rep := by
  rcases h.phase with ⟨-, hfail, -⟩ | hopen | ⟨-, rep', hwait, -⟩ | ⟨hended, rep', hret, -, hrep⟩
  · rw [hfail rep hcall] at hok
    cases hok
  · cases hcall.symm.trans hopen.1
  · cases hcall.symm.trans hwait
  · obtain rfl : rep = rep' := CallPc.returned.inj (hcall.symm.trans hret)
    cases hrep with
    | failure hfail =>
        rw [hfail] at hok
        cases hok
    | served hread htaken halive => exact ⟨hended, _, hread, htaken, halive⟩

theorem earned_noReply {hd : Handler} : Earned Read Alive hd noReply := .failure rfl

/-- A step of a request, given that what it reads of the tables counts as seen. -/
theorem Stage.step {rn : Tables Name} {a : ReqAction} (h : Stage Read Alive q q.proc)
    (hstep : ReqStep rn q a q')
    (hread : ∀ info, a = .read → rn.readEndnameInfo q.endname = some info → Read info)
    (halive : ∀ info r, a = .check → q.handler = .taken info.server r →
      rn.isServerDead q.endname info.servername info.server = false → Alive info r) :
    Stage Read Alive q' q'.proc := by
  cases hstep with
  -- before `processReq`: the request is accepted or refused by the network's goroutine
  | accept hcall =>
      obtain ⟨-, htimer, hnone⟩ := h.of_sending hcall
      exact .start ⟨rfl, htimer⟩ hnone
  | refuse hcall _ =>
      obtain ⟨hidle, htimer, hnone⟩ := h.of_sending hcall
      show Stage Read Alive _ q.proc
      rw [hidle]
      refine .idle ?_ htimer hnone
      intro rep hrep
      cases hrep
      rfl
  -- in `processReq` the stage is known from the program point, and a step leads to the next one
  | read hproc hinfo =>
      rw [hproc] at h
      cases h with
      | start hopen hnone => exact .admitted hopen hnone (hread _ rfl hinfo)
  | readNone hproc _ =>
      rw [hproc] at h
      cases h with
      | start hopen _ => exact .timed hopen.1 rfl earned_noReply
  | dropRequest hproc _ =>
      rw [hproc] at h
      cases h with
      | admitted hopen _ _ => exact .sending hopen earned_noReply
  | spawn hproc =>
      rw [hproc] at h
      cases h with
      | admitted hopen _ hinfo => exact .waiting hopen rfl hinfo
  -- the handler's goroutine runs beside `processReq`, which may have given up on it
  | dispatch hspawned =>
      apply Stage.handler_moves h
      · rw [hspawned]
        rfl
      · intro server r htaken
        rw [hspawned] at htaken
        cases htaken
  | handlerReturns hrunning =>
      apply Stage.handler_moves h
      · rw [hrunning]
        rfl
      · intro server r htaken
        rw [hrunning] at htaken
        cases htaken
  | @take info server r hproc hreturned =>
      rw [hproc] at h
      cases h with
      | waiting hopen hsome hinfo =>
          rw [hreturned] at hsome
          obtain rfl : server = info.server := Option.some.inj hsome
          exact .replied hopen rfl hinfo
  | pollDead hproc _ =>
      rw [hproc] at h
      cases h with
      | waiting hopen _ _ => exact .gaveUp hopen
  | poll _ _ => exact h
  | drain hreturned _ =>
      apply Stage.handler_moves h
      · rw [hreturned]
        rfl
      · intro server r htaken
        rw [hreturned] at htaken
        cases htaken
  -- the second look at the server: a reply is passed on only if the instance is still there
  | checkDead hproc _ =>
      rw [hproc] at h
      cases h with
      | replied hopen _ _ => exact .sending hopen earned_noReply
  | check hproc hdead =>
      rw [hproc] at h
      cases h with
      | replied hopen htaken hinfo => exact .alive hopen htaken hinfo (halive _ _ rfl htaken hdead)
  | checkGaveUp hproc =>
      rw [hproc] at h
      cases h with
      | gaveUp hopen => exact .sending hopen earned_noReply
  | dropReply hproc _ =>
      rw [hproc] at h
      cases h with
      | alive hopen _ _ _ => exact .sending hopen earned_noReply
  | delayReply hproc _ =>
      rw [hproc] at h
      cases h with
      | alive hopen htaken hinfo hal => exact .timed hopen.1 rfl (.served hinfo htaken hal)
  | directReply hproc =>
      rw [hproc] at h
      cases h with
      | alive hopen htaken hinfo hal => exact .sending hopen (.served hinfo htaken hal)
  | reply hproc _ =>
      rw [hproc] at h
      cases h with
      | sending hopen hrep => exact .answered rfl hopen.2 hrep
  -- the timer sends after `processReq` has ended
  | fire htimer _ =>
      obtain ⟨hended, hrep⟩ := h.of_timer htimer
      show Stage Read Alive _ q.proc
      rw [hended]
      exact .answered rfl rfl hrep

/-- The executions of the handler so far. -/
def Req.executed (q : Req Name) : List (ServerId × String × Bytes) :=
  match q.handler with
  | .running server => [(server, q.svcMeth, q.args)]
  | .returned server _ => [(server, q.svcMeth, q.args)]
  | .taken server _ => [(server, q.svcMeth, q.args)]
  | _ => []

/-- What they produced so far. -/
def Req.results (q : Req Name) : List ReplyMsg :=
  match q.handler with
  | .returned _ r => [r]
  | .taken _ r => [r]
  | _ => []

/-- The replies to the request so far. -/
def Req.replied (q : Req Name) : List ReplyMsg :=
  match q.proc, q.call with
  | .ended, .returned rep => [rep]
  | _, _ => []

theorem replied_length (q : Req Name) : q.replied.length ≤ 1 := by
  unfold Req.replied
  split
  · exact Nat.le_refl 1
  · exact Nat.zero_le 1

theorem executed_length (q : Req Name) : q.executed.length ≤ 1 := by
  unfold Req.executed
  split <;> simp

theorem ReqStep.same_request {rn : Tables Name} {a : ReqAction} (hstep : ReqStep rn q a q') :
    (q'.endname, q'.svcMeth, q'.args) = (q.endname, q.svcMeth, q.args) := by
  cases hstep <;> rfl

/-- Nothing has been executed before the handler is started. -/
theorem Stage.absent {info : Info Name} (h : Stage Read Alive q q.proc) (hproc : q.proc = .admitted info) :
    q.handler = .absent := by
  rw [hproc] at h
  cases h with
  | admitted _ hnone _ =>
      cases hh : q.handler with
      | absent => rfl
      | _ =>
          rw [hh] at hnone
          cases hnone

theorem executed_step {rn : Tables Name} {a : ReqAction} (h : Stage Read Alive q q.proc)
    (hstep : ReqStep rn q a q') : q'.executed = q.executed ++ a.executed.toList := by
  cases hstep with
  | spawn hproc => simp [Req.executed, h.absent hproc, ReqAction.executed]
  | dispatch hspawned => simp [Req.executed, hspawned, ReqAction.executed]
  | handlerReturns hrunning => simp [Req.executed, hrunning, ReqAction.executed]
  | take _ hreturned => simp [Req.executed, hreturned, ReqAction.executed]
  | drain hreturned _ => simp [Req.executed, hreturned, ReqAction.executed]
  -- the handler is left alone
  | _ => exact (List.append_nil q.executed).symm

theorem results_step {rn : Tables Name} {a : ReqAction} (h : Stage Read Alive q q.proc)
    (hstep : ReqStep rn q a q') : q'.results = q.results ++ a.produced.toList := by
  cases hstep with
  | spawn hproc => simp [Req.results, h.absent hproc, ReqAction.produced]
  | dispatch hspawned => simp [Req.results, hspawned, ReqAction.produced]
  | handlerReturns hrunning => simp [Req.results, hrunning, ReqAction.produced]
  | take _ hreturned => simp [Req.results, hreturned, ReqAction.produced]
  | drain hreturned _ => simp [Req.results, hreturned, ReqAction.produced]
  | _ => exact (List.append_nil q.results).symm

theorem replied_step {rn : Tables Name} {a : ReqAction} (h : Stage Read Alive q q.proc)
    (hstep : ReqStep rn q a q') : q'.replied = q.replied ++ a.sent.toList := by
  cases hstep with
  | accept hcall => simp [Req.replied, (h.of_sending hcall).1, ReqAction.sent]
  | refuse hcall _ => simp [Req.replied, (h.of_sending hcall).1, ReqAction.sent]
  | readNone hproc _ =>
      rw [hproc] at h
      cases h with
      | start hopen _ => simp [Req.replied, hproc, hopen.1, ReqAction.sent]
  | delayReply hproc _ =>
      rw [hproc] at h
      cases h with
      | alive hopen _ _ _ => simp [Req.replied, hproc, hopen.1, ReqAction.sent]
  | reply hproc _ => simp [Req.replied, hproc, ReqAction.sent]
  | fire htimer hcall => simp [Req.replied, (h.of_timer htimer).1, hcall, ReqAction.sent]
  | dispatch _ => exact (List.append_nil q.replied).symm
  | handlerReturns _ => exact (List.append_nil q.replied).symm
  | drain _ _ => exact (List.append_nil q.replied).symm
  | poll _ _ => exact (List.append_nil q.replied).symm
  -- `processReq` goes from one point before its end to another
  | _ => simp_all [Req.replied, ReqAction.sent]

end Step

/-! ## The system -/

/-- The moment at which `processReq` reads the tables for a request: an instance is registered under the name the
    end is connected to. -/
def ReadAt (id : ReqId) (endname servername : Name) (server : ServerId) (pre : List (Event Name))
    (s : State Name) : Prop :=
  pre.getLast? = some (.req id .read) ∧ s.rn.enabled endname = true ∧
    s.rn.connections endname = some servername ∧ s.rn.servers servername = some server

/-- A moment at which the handler has returned and the instance is registered. -/
def AliveAt (id : ReqId) (endname servername : Name) (server : ServerId) (r : ReplyMsg)
    (pre : List (Event Name)) (s : State Name) : Prop :=
  r ∈ results (actions pre id) ∧ s.rn.enabled endname = true ∧ s.rn.servers servername = some server

variable [DecidableEq Name]

/-- What holds of a request after a run. -/
structure ReqOk (tr : List (Event Name)) (s : State Name) (id : ReqId) (q : Req Name) : Prop where
  called : calls tr id = [(q.endname, q.svcMeth, q.args)]
  executed : executions (actions tr id) = q.executed
  produced : results (actions tr id) = q.results
  replied : replies (actions tr id) = q.replied
  stage : Stage (fun info => Once (network Name) (ReadAt id q.endname info.servername info.server) tr s)
    (fun info r => Once (network Name) (AliveAt id q.endname info.servername info.server r) tr s) q q.proc

/-- The same for a number that may not have been used. -/
inductive EntryOk (tr : List (Event Name)) (s : State Name) (id : ReqId) : Option (Req Name) → Prop where
  | unused : calls tr id = [] → actions tr id = [] → EntryOk tr s id none
  | used {q} : ReqOk tr s id q → EntryOk tr s id (some q)

section Runs

variable {tr : List (Event Name)} {s s' : State Name} {e : Event Name} {id : ReqId} {q q' : Req Name}

/-- A step that is not the request's own. -/
theorem ReqOk.frame (h : ReqOk tr s id q) (hstep : Step s e s') (haction : e.action id = none)
    (hcalled : e.called id = none) : ReqOk (tr ++ [e]) s' id q where
  called := by
    rw [calls_snoc_none hcalled]
    exact h.called
  executed := by
    rw [actions_snoc_none haction]
    exact h.executed
  produced := by
    rw [actions_snoc_none haction]
    exact h.produced
  replied := by
    rw [actions_snoc_none haction]
    exact h.replied
  stage := h.stage.mono (fun _ hread => hread.snoc hstep) (fun _ _ halive => halive.snoc hstep)

/-- A step of the request. -/
theorem ReqOk.step {a : ReqAction} (h : ReqOk tr s id q) (hrun : Reaches (network Name) tr s)
    (hq : s.req id = some q) (hreq : ReqStep s.rn q a q') :
    ReqOk (tr ++ [.req id a]) (s.setReq id q') id q' := by
  have hstep : (network Name).step s (.req id a) (s.setReq id q') := Step.req hq hreq
  have hrun' : Reaches (network Name) (tr ++ [.req id a]) (s.setReq id q') := hrun.snoc hstep
  have hsame := hreq.same_request
  have hend : q'.endname = q.endname := congrArg Prod.fst hsame
  refine ⟨?_, ?_, ?_, ?_, ?_⟩
  · rw [calls_snoc_none rfl, h.called, hsame]
  · rw [actions_snoc_req, executed_step h.stage hreq, ← h.executed]
    exact filterMap_snoc ReqAction.executed _ a
  · rw [actions_snoc_req, results_step h.stage hreq, ← h.produced]
    exact filterMap_snoc ReqAction.produced _ a
  · rw [actions_snoc_req, replied_step h.stage hreq, ← h.replied]
    exact filterMap_snoc ReqAction.sent _ a
  · rw [hend]
    have hstage := h.stage.mono (fun _ hread => hread.snoc hstep) (fun _ _ halive => halive.snoc hstep)
    -- what the step itself reads of the tables is so at the end of the run
    refine hstage.step hreq ?_ ?_
    · rintro info rfl hinfo
      apply Once.now hrun'
      exact ⟨List.getLast?_concat, readEndnameInfo_some hinfo⟩
    · rintro info r rfl htaken hdead
      apply Once.now hrun'
      refine ⟨?_, isServerDead_false hdead⟩
      have hsame : results (actions tr id ++ [.check]) = results (actions tr id) := filterMap_snoc_none rfl
      rw [actions_snoc_req, hsame, h.produced, Req.results, htaken]
      exact List.mem_singleton_self r

/-- A new request: nothing has been done for it. -/
theorem ReqOk.new {endname : Name} {svcMeth : String} {args : Bytes} (hcalls : calls tr id = [])
    (hactions : actions tr id = []) :
    ReqOk (tr ++ [.call id endname svcMeth args]) s id
      { endname := endname, svcMeth := svcMeth, args := args } := by
  have hnone : actions (tr ++ [.call id endname svcMeth args]) id = [] := by
    rw [actions_snoc_none rfl]
    exact hactions
  refine ⟨?_, ?_, ?_, ?_, ?_⟩
  · rw [calls_snoc_call, hcalls]
    rfl
  · rw [hnone]
    rfl
  · rw [hnone]
    rfl
  · rw [hnone]
    rfl
  · exact .idle nofun rfl rfl

theorem EntryOk.frame {entry : Option (Req Name)} (h : EntryOk tr s id entry) (hstep : Step s e s')
    (haction : e.action id = none) (hcalled : e.called id = none) : EntryOk (tr ++ [e]) s' id entry := by
  cases h with
  | unused hcalls hactions =>
      refine .unused ?_ ?_
      · rw [calls_snoc_none hcalled]
        exact hcalls
      · rw [actions_snoc_none haction]
        exact hactions
  | used hok => exact .used (hok.frame hstep haction hcalled)

/-- **One step of the system**, for every request. -/
theorem entries_step (hrun : Reaches (network Name) tr s) (h : ∀ id, EntryOk tr s id (s.req id))
    (hstep : Step s e s') (id : ReqId) : EntryOk (tr ++ [e]) s' id (s'.req id) := by
  cases hstep with
  | @call i endname svcMeth args hnew =>
      by_cases hi : i = id
      · subst hi
        have hentry := h i
        rw [hnew] at hentry
        cases hentry with
        | unused hcalls hactions =>
            rw [State.setReq_self]
            exact .used (ReqOk.new hcalls hactions)
      · rw [State.setReq_ne (Ne.symm hi)]
        exact (h id).frame (.call hnew) rfl (if_neg hi)
  | @req i a q q' hq hreq =>
      by_cases hi : i = id
      · subst hi
        have hentry := h i
        rw [hq] at hentry
        cases hentry with
        | used hok =>
            rw [State.setReq_self]
            exact .used (hok.step hrun hq hreq)
      · rw [State.setReq_ne (Ne.symm hi)]
        exact (h id).frame (.req hq hreq) (if_neg hi) rfl
  | table => exact (h id).frame .table rfl rfl

/-- **Every request after every run.** -/
theorem reqOk_of_reaches (hrun : Reaches (network Name) tr s) (hq : s.req id = some q) :
    ReqOk tr s id q := by
  have hall : ∀ id, EntryOk tr s id (s.req id) := by
    refine Reaches.invariant (P := fun tr s => ∀ id, EntryOk tr s id (s.req id)) ?_ ?_ hrun
    · intro id
      exact .unused rfl rfl
    · intro tr s e s' hrun h hstep
      exact entries_step hrun h hstep
  have hentry := hall id
  rw [hq] at hentry
  cases hentry with
  | used hok => exact hok

/-- `processReq` has returned, and its timer, if it set one, has fired. -/
def Req.Over (q : Req Name) : Prop := q.proc = .ended ∧ q.timer = none

/-- A request is over when it has been answered, and not before. -/
theorem ReqOk.over_iff (h : ReqOk tr s id q) : q.Over ↔ (replies (actions tr id)).length = 1 := by
  rw [h.replied]
  have hstage := h.stage
  constructor
  · rintro ⟨hended, htimer⟩
    rw [hended] at hstage
    cases hstage with
    | timed _ hsome _ =>
        rw [htimer] at hsome
        cases hsome
    | answered hcall _ _ => rw [Req.replied, hended, hcall, List.length_singleton]
  · intro hlen
    unfold Req.replied at hlen
    split at hlen
    case h_1 rep hended hcall =>
        rw [hended] at hstage
        cases hstage with
        | timed hwait _ _ =>
            rw [hcall] at hwait
            cases hwait
        | answered _ htimer _ => exact ⟨hended, htimer⟩
    case h_2 => cases hlen

/-- **The semantics of a `Call`**, after any run. A request is over, its timer included, exactly when one reply has
been sent, and there is never a second. Its handler is executed at most once. When `Call` returns true, the handler
has been executed once, with the arguments of the call and on the instance that was registered when the tables were
read; the reply is what that execution produced; and at some moment after that the instance was registered and the end
enabled. -/
theorem call_semantics (hrun : Reaches (network Name) tr s) (hq : s.req id = some q) :
    ((replies (actions tr id)).length ≤ 1 ∧ (q.Over ↔ (replies (actions tr id)).length = 1)) ∧
      (executions (actions tr id)).length ≤ 1 ∧
      ∀ reply, q.call = .returned ⟨true, reply⟩ →
        calls tr id = [(q.endname, q.svcMeth, q.args)] ∧
        replies (actions tr id) = [⟨true, reply⟩] ∧ results (actions tr id) = [⟨true, reply⟩] ∧
        ∃ servername server,
          executions (actions tr id) = [(server, q.svcMeth, q.args)] ∧
          Once (network Name) (ReadAt id q.endname servername server) tr s ∧
          Once (network Name) (AliveAt id q.endname servername server ⟨true, reply⟩) tr s := by
  have hok := reqOk_of_reaches hrun hq
  refine ⟨⟨?_, hok.over_iff⟩, ?_, ?_⟩
  · rw [hok.replied]
    exact replied_length q
  · rw [hok.executed]
    exact executed_length q
  · intro reply hcall
    obtain ⟨hended, info, hread, htaken, halive⟩ := hok.stage.of_returned hcall rfl
    refine ⟨hok.called, ?_, ?_, info.servername, info.server, ?_, hread, halive⟩
    · rw [hok.replied, Req.replied, hended, hcall]
    · rw [hok.produced, Req.results, htaken]
    · rw [hok.executed, Req.executed, htaken]

end Runs

/-- Replies are delayed; the instance behind the second request is replaced while its handler runs. -/
def replacedTrace : List (Event String) :=
  [.table (.addServer "kv" 1), .table (.connect "c" (some "kv")), .table (.enable "c" true),
    .table (.setLongReordering true), .call 0 "c" "KVServer.Get" [5], .req 0 .accept, .req 0 .read,
    .req 0 .spawn, .call 1 "c" "KVServer.Put" [6], .req 1 .accept, .req 1 .read, .req 1 .spawn,
    .req 0 (.dispatch 1 "KVServer.Get" [5]), .req 0 (.handlerReturns ⟨true, [7]⟩), .req 0 .take,
    .req 0 .check, .req 0 .delayReply, .req 1 (.dispatch 1 "KVServer.Put" [6]),
    .table (.deleteServer "kv"), .table (.addServer "kv" 2), .req 1 .poll,
    .req 1 (.handlerReturns ⟨true, [8]⟩), .req 1 .drain, .req 1 .check, .req 1 (.reply noReply),
    .req 0 (.fire ⟨true, [7]⟩)]

theorem call_semantics_replacedTrace : ∃ s q, Reaches (network String) replacedTrace s ∧ s.req 0 = some q ∧
    q.call = .returned ⟨true, [7]⟩ ∧ q.Over ∧ ∃ servername server,
      executions (actions replacedTrace 0) = [(server, "KVServer.Get", [5])] ∧
      Once (network String) (AliveAt 0 "c" servername server ⟨true, [7]⟩) replacedTrace s := by
  have hrun : ∃ s, Reaches (network String) replacedTrace s ∧
      decide (s.req 0 = some ⟨"c", "KVServer.Get", [5], .returned ⟨true, [7]⟩, .ended, none,
        .taken 1 ⟨true, [7]⟩⟩) = true :=
    exists_reaches_with network_computedBy _ (by decide +kernel)
  obtain ⟨s, hs, hat⟩ := hrun
  have hq := of_decide_eq_true hat
  obtain ⟨⟨-, hover⟩, -, htrue⟩ := call_semantics hs hq
  obtain ⟨-, hone, -, servername, server, hexec, -, halive⟩ := htrue [7] rfl
  have hlen : (replies (actions replacedTrace 0)).length = 1 := by
    rw [hone]
    rfl
  exact ⟨s, _, hs, hq, rfl, hover.mpr hlen, servername, server, hexec, halive⟩

end LabRpc
end DistributedLabs
