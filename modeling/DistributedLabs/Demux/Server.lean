import DistributedLabs.Demux.Results
import DistributedLabs.Lib.Pool

/-!
# `Demux.Server` — a remote procedure call over one connection

`tester1/demux/dmxsrv.go` and `tester1/sockrpc`: the other side of the client's connection. The server takes the
`InitMsg` off the connection, then reads request after request and starts a goroutine for each, which dispatches the
request and writes the reply under the request's tag; replies go out in any order.

The client's own steps are those of `Demux.Client`, with its peer replaced by this server. Its `out` is what is on the
way to the server here, its `wire` what is on the way back. Reading and writing may fail at any moment on either side,
and the server's process may die at any moment; what `Dispatch` returns is arbitrary.

## Refinement

A request that is on the connection or that the server has not replied to is one that the peer of `Demux.Client` has
yet to answer (`Follows`): a run of the connection is a run of the client, with the server's steps left out and its
replies as the peer's answers. `Follows.step` follows one step, `follows` a whole run. So the client's invariant holds
here too, and with it: a call is dispatched at most once, and if it returns a reply, that is the reply of its own
dispatch (`rpc_dispatched`, in `Demux.Dispatch`).
-/

namespace DistributedLabs
namespace Demux

open Lib

/-! ## The code -/

/-- What `RPC` sends: the method and the arguments of the call, encoded. -/
structure RPCArgs where
  method : String
  args : Bytes
deriving DecidableEq, Repr

/-- `labrpc.Marshall` and `labrpc.Unmarshall` for the `InitMsg` and for the arguments of a call. -/
structure RpcCodec where
  initMsg : String → Bytes
  readInit : Bytes → Option String
  rpcArgs : RPCArgs → Bytes
  readArgs : Bytes → Option RPCArgs
  readInit_initMsg : ∀ clnt, readInit (initMsg clnt) = some clnt
  readArgs_rpcArgs : ∀ a, readArgs (rpcArgs a) = some a

/-- Where the server is: in `NewDemuxSrv`, in the loop of `reader`, past it, or dead. -/
inductive SrvPc where
  | starting
  | reading
  | stopped
  | dead
deriving DecidableEq, Repr

/-- Where the goroutine of a request is. -/
inductive TaskPc where
  | started
  | serving
  | served (rep : Bytes) (ok : Bool)
  | replied (rep : Bytes) (ok : Bool)
  | lost (rep : Bytes) (ok : Bool)
deriving DecidableEq, Repr

/-- The goroutine of a request. -/
structure Task where
  tag : Ttag
  req : Bytes
  pc : TaskPc
deriving DecidableEq, Repr

/-- `hello` is the `InitMsg` while it is on its way. -/
structure Conn where
  clnt : State
  hello : Option Bytes
  pc : SrvPc
  clntEnd : String
  closed : Bool
  tasks : List Task

/-- The client's steps, and those of the server and its goroutines. -/
inductive ConnEvent where
  | rpc (c : CallId) (a : RPCArgs)
  | client (e : Event)
  | accept
  | acceptFails
  | receive
  | receiveFails (eof : Bool)
  | dispatch (t : Ttag) (clnt : String) (a : RPCArgs)
  | malformed
  | dispatched (t : Ttag) (rep : Bytes) (ok : Bool)
  | reply (t : Ttag) (rep : Bytes) (ok : Bool)
  | replyLost (t : Ttag)
  | close
  | die
deriving DecidableEq, Repr

/-- The steps of the client that are neither the beginning of a call nor the peer's. -/
def Event.own : Event → Bool
  | .call _ _ | .answer _ _ _ => false
  | _ => true

/-- A step of the client, of the server, or of a goroutine of the server. -/
inductive ConnStep (w : RpcCodec) : Conn → ConnEvent → Conn → Prop where
  -- the client
  | rpc {s c a clnt'} : Step s.clnt (.call c (w.rpcArgs a)) clnt' →
      ConnStep w s (.rpc c a) { s with clnt := clnt' }
  | client {s e clnt'} : e.own = true → Step s.clnt e clnt' → ConnStep w s (.client e) { s with clnt := clnt' }
  -- `NewDemuxSrv`
  | accept {s b name} : s.pc = .starting → s.hello = some b → w.readInit b = some name →
      ConnStep w s .accept { s with pc := .reading, hello := none, clntEnd := name }
  | acceptFails {s} : s.pc = .starting → ConnStep w s .acceptFails { s with pc := .dead }
  -- `reader`
  | receive {s t b rest} : s.pc = .reading → s.clnt.out = (t, b) :: rest →
      ConnStep w s .receive { s with clnt := { s.clnt with out := rest }, tasks := s.tasks ++ [⟨t, b, .started⟩] }
  | receiveFails {s eof} : s.pc = .reading →
      ConnStep w s (.receiveFails eof) { s with pc := .stopped, closed := s.closed || eof }
  -- a goroutine: `ServeRequest`, then `WriteCall`
  | dispatch {s : Conn} {g : Nat} {t b a} : s.pc ≠ .dead → s.tasks[g]? = some ⟨t, b, .started⟩ → w.readArgs b = some a →
      ConnStep w s (.dispatch t s.clntEnd a) { s with tasks := s.tasks.set g ⟨t, b, .serving⟩ }
  | malformed {s : Conn} {g : Nat} {t b} : s.pc ≠ .dead → s.tasks[g]? = some ⟨t, b, .started⟩ → w.readArgs b = none →
      ConnStep w s .malformed { s with pc := .dead }
  | dispatched {s : Conn} {g : Nat} {t b rep ok} : s.pc ≠ .dead → s.tasks[g]? = some ⟨t, b, .serving⟩ →
      ConnStep w s (.dispatched t rep ok) { s with tasks := s.tasks.set g ⟨t, b, .served rep ok⟩ }
  | reply {s : Conn} {g : Nat} {t b rep ok} : s.pc ≠ .dead → s.tasks[g]? = some ⟨t, b, .served rep ok⟩ →
      ConnStep w s (.reply t rep ok)
        { s with clnt := { s.clnt with wire := s.clnt.wire ++ [(t, rep, ok)] },
                 tasks := s.tasks.set g ⟨t, b, .replied rep ok⟩ }
  | replyLost {s : Conn} {g : Nat} {t b rep ok} : s.pc ≠ .dead → s.tasks[g]? = some ⟨t, b, .served rep ok⟩ →
      ConnStep w s (.replyLost t) { s with tasks := s.tasks.set g ⟨t, b, .lost rep ok⟩ }
  -- `Close`, and the end of the server's process
  | close {s} : ConnStep w s .close { s with closed := true }
  | die {s} : ConnStep w s .die { s with pc := .dead }

/-- A connection whose client is `clnt`, after `NewDemuxClnt`. -/
def connection (w : RpcCodec) (clnt : String) : LTS Conn ConnEvent where
  init := ⟨demux.init, some (w.initMsg clnt), .starting, "", false, []⟩
  step := ConnStep w

/-- What `RPC` returns, once `SendReceive` has. -/
def Caller.rpcResult : Caller → Option (Bytes × Bool)
  | .refused rep | .returned _ rep => if rep.err.isSome then some ([], false) else some (rep.rep, rep.ok)
  | _ => none

/-! ## Reading a trace -/

/-- What a step is for the client. -/
def ConnEvent.seen (w : RpcCodec) : ConnEvent → Option Event
  | .rpc c a => some (.call c (w.rpcArgs a))
  | .client e => some e
  | .reply t rep ok => some (.answer t rep ok)
  | _ => none

/-- The client's part of a trace. -/
def clientPart (w : RpcCodec) (tr : List ConnEvent) : List Event := tr.filterMap (ConnEvent.seen w)

/-- The dispatch of the request with a tag. -/
def ConnEvent.dispatch? (t : Ttag) : ConnEvent → Option (String × RPCArgs)
  | .dispatch t' clnt a => if t' = t then some (clnt, a) else none
  | _ => none

/-- The dispatches of the request with a tag: from which client, and what was called. -/
def dispatches (tr : List ConnEvent) (t : Ttag) : List (String × RPCArgs) := tr.filterMap (ConnEvent.dispatch? t)

/-- What the dispatch of the request with a tag returned. -/
def ConnEvent.dispatched? (t : Ttag) : ConnEvent → Option (Bytes × Bool)
  | .dispatched t' rep ok => if t' = t then some (rep, ok) else none
  | _ => none

/-- What the dispatches of the request with a tag returned. -/
def results (tr : List ConnEvent) (t : Ttag) : List (Bytes × Bool) := tr.filterMap (ConnEvent.dispatched? t)

/-- The request a call was made with. -/
def Event.called? (c : CallId) : Event → Option Bytes
  | .call c' b => if c' = c then some b else none
  | _ => none

/-- The requests a call was made with. -/
def called (tr : List Event) (c : CallId) : List Bytes := tr.filterMap (Event.called? c)

/-! ## The client -/

/-- The request a call has in hand. -/
def Caller.request : Caller → Option Bytes
  | .called b | .tagged _ b | .registered _ b => some b
  | _ => none

/-- Whether the call has no tag yet. -/
def Caller.untagged : Caller → Bool
  | .idle | .called _ => true
  | _ => false

/-- A call is made once, and gets one tag. -/
structure CalledOnce (tr : List Event) (c : CallId) (p : Caller) : Prop where
  idle : p = .idle → called tr c = []
  once : (called tr c).length ≤ 1
  request : ∀ {b}, p.request = some b → called tr c = [b]
  untagged : p.untagged = true → ∀ t, .tag c t ∉ tr
  tagOnce : ∀ {t t'}, .tag c t ∈ tr → .tag c t' ∈ tr → t = t'
  refusal : ∀ {rep}, p = .refused rep → rep = connClosed

section CalledOnce

variable {tr : List Event} {s s' : State} {e : Event} {c : CallId} {p p' : Caller}

/-- What is neither the beginning of the call nor the issue of its tag. -/
theorem CalledOnce.keep (h : CalledOnce tr c p) (hcall : e.called? c = none) (htag : ∀ t, e ≠ .tag c t)
    (hidle : p' ≠ .idle ∨ p' = p) (hreq : ∀ {b}, p'.request = some b → p.request = some b)
    (hun : p'.untagged = true → p.untagged = true) (href : ∀ {rep}, p' = .refused rep → rep = connClosed) :
    CalledOnce (tr ++ [e]) c p' := by
  have hcalled : called (tr ++ [e]) c = called tr c := filterMap_snoc_none hcall
  have hmem : ∀ {t}, .tag c t ∈ tr ++ [e] → .tag c t ∈ tr := by
    intro t ht
    rcases List.mem_append.mp ht with hold | hlast
    · exact hold
    · exact absurd (List.mem_singleton.mp hlast).symm (htag t)
  refine ⟨fun hp => ?_, hcalled ▸ h.once, fun hb => hcalled.trans (h.request (hreq hb)), ?_, ?_, href⟩
  · rcases hidle with hne | rfl
    · exact absurd hp hne
    · exact hcalled.trans (h.idle hp)
  · exact fun hp t ht => h.untagged (hun hp) t (hmem ht)
  · exact fun ht ht' => h.tagOnce (hmem ht) (hmem ht')

theorem CalledOnce.move (h : CalledOnce tr c p) (hmove : CallerMove c e p p') : CalledOnce (tr ++ [e]) c p' := by
  cases hmove with
  | @call b =>
      have hone : called (tr ++ [.call c b]) c = [b] := by
        rw [called, filterMap_snoc, ← called, h.idle rfl, List.nil_append, Event.called?, if_pos rfl]
        rfl
      have hnone : ∀ t, .tag c t ∉ tr ++ [.call c b] := by
        intro t ht
        rcases List.mem_append.mp ht with hold | hlast
        · exact h.untagged rfl t hold
        · cases List.mem_singleton.mp hlast
      refine ⟨nofun, Nat.le_of_eq (congrArg List.length hone), ?_, fun _ => hnone, ?_, nofun⟩
      · rintro b ⟨⟩
        exact hone
      · exact fun ht => absurd ht (hnone _)
  | @tag t b =>
      have hcalled : called (tr ++ [.tag c t]) c = called tr c := filterMap_snoc_none rfl
      have hmem : ∀ {t'}, .tag c t' ∈ tr ++ [.tag c t] → t' = t := by
        intro t' ht'
        rcases List.mem_append.mp ht' with hold | hlast
        · exact absurd hold (h.untagged rfl t')
        · exact (Event.tag.inj (List.mem_singleton.mp hlast)).2
      refine ⟨nofun, hcalled ▸ h.once, ?_, nofun, fun ht ht' => (hmem ht).trans (hmem ht').symm, nofun⟩
      rintro b ⟨⟩
      exact hcalled.trans (h.request rfl)
  | put => exact h.keep rfl nofun (Or.inl nofun) id nofun nofun
  | refuse => exact h.keep rfl nofun (Or.inl nofun) nofun nofun (fun hrep => (Caller.refused.inj hrep).symm)
  | _ => exact h.keep rfl nofun (Or.inl nofun) nofun nofun nofun

theorem calledOnce_step (h : CalledOnce tr c (s.caller c)) (hs : Step s e s') :
    CalledOnce (tr ++ [e]) c (s'.caller c) := by
  rcases step_caller hs c with ⟨hother, hsame⟩ | hmove
  · rw [hsame]
    refine h.keep ?_ ?_ (Or.inr rfl) id id h.refusal
    · cases e with
      | call c' b =>
          have hne : c' ≠ c := fun heq => hother (congrArg some heq)
          exact if_neg hne
      | _ => rfl
    · rintro t rfl
      exact hother rfl
  · exact h.move hmove

end CalledOnce

/-- In every run of the client a call is made once and gets one tag. -/
theorem calledOnce {tr : List Event} {s : State} (hrun : Reaches demux tr s) (c : CallId) :
    CalledOnce tr c (s.caller c) := by
  refine Reaches.invariant (P := fun tr s => CalledOnce tr c (s.caller c)) ?_ ?_ hrun
  · exact ⟨fun _ => rfl, Nat.zero_le _, nofun, fun _ => nofun, nofun, nofun⟩
  · intro tr s e s' _ ih hs
    exact calledOnce_step ih hs

theorem called_keep {tr : List Event} {e : Event} {s : State} (hrun : Reaches demux (tr ++ [e]) s) {c : CallId}
    {b : Bytes} (h : called tr c = [b]) : called (tr ++ [e]) c = [b] := by
  have honce := (calledOnce hrun c).once
  rw [called, filterMap_snoc, ← called, h] at honce ⊢
  rw [List.length_append, List.length_singleton] at honce
  have hnone : (e.called? c).toList = [] := List.eq_nil_of_length_eq_zero (by omega)
  rw [hnone, List.append_nil]

/-- Tags are issued once. -/
theorem tag_issued_once {tr : List Event} {s : State} (hrun : Reaches demux tr s) (hfew : issued tr < 2 ^ 32) :
    (∀ c t, .tag c t ∈ tr → t.toNat < issued tr) ∧ ∀ c c' t, .tag c t ∈ tr → .tag c' t ∈ tr → c = c' := by
  revert hfew
  refine Reaches.invariant (P := fun tr _ => issued tr < 2 ^ 32 → (∀ c t, Event.tag c t ∈ tr → t.toNat < issued tr)
    ∧ ∀ c c' t, Event.tag c t ∈ tr → Event.tag c' t ∈ tr → c = c') (fun _ => ⟨nofun, nofun⟩) ?_ hrun
  intro tr s e s' hrun ih hs hfew
  rw [issued_snoc] at hfew ⊢
  obtain ⟨hbelow, hinj⟩ := ih (by omega)
  have hnext := (demuxOk hrun (by omega)).nextTag
  -- a tag that is issued now is the next one
  have hnew : ∀ {c t}, Event.tag c t ∈ tr ++ [e] → Event.tag c t ∈ tr ∨ e = .tag c t ∧ t.toNat = issued tr := by
    intro c t hmem
    rcases List.mem_append.mp hmem with hold | hlast
    · exact Or.inl hold
    · obtain rfl := List.mem_singleton.mp hlast
      cases hs
      exact Or.inr ⟨rfl, hnext⟩
  constructor
  · intro c t hmem
    rcases hnew hmem with hold | ⟨rfl, ht⟩
    · exact Nat.lt_of_lt_of_le (hbelow c t hold) (Nat.le_add_right ..)
    · rw [ht]
      exact Nat.lt_succ_self _
  · intro c c' t hmem hmem'
    rcases hnew hmem with hold | ⟨rfl, ht⟩
    · rcases hnew hmem' with hold' | ⟨rfl, ht'⟩
      · exact hinj c c' t hold hold'
      · have hlt := hbelow c t hold
        omega
    · rcases hnew hmem' with hold' | ⟨heq, _⟩
      · have hlt := hbelow c' t hold'
        omega
      · exact (Event.tag.inj heq).1

/-- The client does not look at what is on the way from it; it may add a request. -/
theorem Step.withOut {s s' : State} {e : Event} (h : Step s e s') (hpeer : e.answer? = none)
    (out : List (Ttag × Bytes)) :
    ∃ m : Option (Ttag × Bytes), Step { s with out := out } e { s' with out := out ++ m.toList }
      ∧ s'.out = s.out ++ m.toList ∧ ∀ t b, m = some (t, b) → ∃ c, s.caller c = .registered t b := by
  -- all steps but the write leave `out` alone
  have hquiet : ∀ s' : State, Step { s with out := out } e { s' with out := out } → s'.out = s.out →
      ∃ m : Option (Ttag × Bytes), Step { s with out := out } e { s' with out := out ++ m.toList }
        ∧ s'.out = s.out ++ m.toList ∧ ∀ t b, m = some (t, b) → ∃ c, s.caller c = .registered t b := by
    intro s' hstep hsame
    refine ⟨none, ?_, ?_, nofun⟩
    · rw [Option.toList_none, List.append_nil]
      exact hstep
    · rw [Option.toList_none, List.append_nil, hsame]
  cases h with
  | call hc => exact hquiet _ (.call hc) rfl
  | tag hc => exact hquiet _ (.tag hc) rfl
  | put hc ho => exact hquiet _ (.put hc ho) rfl
  | refuse hc ho => exact hquiet _ (.refuse hc ho) rfl
  | @write c t b hc =>
      refine ⟨some (t, b), .write hc, rfl, ?_⟩
      rintro _ _ ⟨⟩
      exact ⟨c, hc⟩
  | writeFails hc => exact hquiet _ (.writeFails hc) rfl
  | written hc => exact hquiet _ (.written hc) rfl
  | answer _ => cases hpeer
  | read hr hw => exact hquiet _ (.read hr hw) rfl
  | readFails hr => exact hquiet _ (.readFails hr) rfl
  | closeMap hr => exact hquiet _ (.closeMap hr) rfl
  | outstanding hr hp => exact hquiet _ (.outstanding hr hp) rfl
  | fail hr => exact hquiet _ (.fail hr) rfl
  | finish hr => exact hquiet _ (.finish hr) rfl
  | remove hr hl => exact hquiet _ (.remove hr hl) rfl
  | abort hr hl => exact hquiet _ (.abort hr hl) rfl
  | deliver hr hc => exact hquiet _ (.deliver hr hc) rfl
  | close => exact hquiet _ .close rfl

/-! ## Goroutines by their tags -/

/-- The request as it was on the connection. -/
def Task.msg (k : Task) : Ttag × Bytes := (k.tag, k.req)

/-- The goroutine of a tag has a property. -/
def HasTask (l : List Task) (t : Ttag) (P : TaskPc → Prop) : Prop :=
  ∃ (g : Nat) (k : Task), l[g]? = some k ∧ k.tag = t ∧ P k.pc

section Tasks

variable {l : List Task} {g : Nat} {t t' : Ttag} {b : Bytes} {pc pc' : TaskPc} {P : TaskPc → Prop}

theorem hasTask_snoc : HasTask (l ++ [⟨t, b, pc⟩]) t' P ↔ HasTask l t' P ∨ t' = t ∧ P pc := by
  constructor
  · rintro ⟨g, k, hg, rfl, hP⟩
    rcases snoc_cases hg with ⟨_, rfl⟩ | hold
    · exact Or.inr ⟨rfl, hP⟩
    · exact Or.inl ⟨g, k, hold, rfl, hP⟩
  · rintro (⟨g, k, hg, ht, hP⟩ | ⟨rfl, hP⟩)
    · exact ⟨g, k, snoc_old hg _, ht, hP⟩
    · exact ⟨_, _, snoc_last _ _, rfl, hP⟩

/-- No two goroutines have one tag. -/
theorem task_unique {g' : Nat} {k k' : Task} (hnodup : (l.map Task.tag).Nodup) (h : l[g]? = some k)
    (h' : l[g']? = some k') (ht : k'.tag = k.tag) : g' = g ∧ k' = k := by
  have hmap : (l.map Task.tag)[g]? = some k.tag := by rw [List.getElem?_map, h]; rfl
  have hmap' : (l.map Task.tag)[g']? = some k.tag := by rw [List.getElem?_map, h', ← ht]; rfl
  have hlt : g < (l.map Task.tag).length := lt_length hmap
  have hg : g' = g := ((List.getElem?_inj hlt hnodup).mp (hmap.trans hmap'.symm)).symm
  subst hg
  exact ⟨rfl, Option.some.inj (h'.symm.trans h)⟩

theorem hasTask_set (hnodup : (l.map Task.tag).Nodup) (h : l[g]? = some ⟨t, b, pc⟩) :
    HasTask (l.set g ⟨t, b, pc'⟩) t' P ↔ (t' ≠ t ∧ HasTask l t' P) ∨ t' = t ∧ P pc' := by
  constructor
  · rintro ⟨g', k, hg', rfl, hP⟩
    rcases set_cases hg' with ⟨_, rfl⟩ | ⟨hne, hold⟩
    · exact Or.inr ⟨rfl, hP⟩
    · refine Or.inl ⟨fun ht => hne ?_, g', k, hold, rfl, hP⟩
      exact (task_unique hnodup h hold ht).1
  · rintro (⟨hne, g', k, hg', rfl, hP⟩ | ⟨rfl, hP⟩)
    · refine ⟨g', k, set_other ?_ hg' _, rfl, hP⟩
      rintro rfl
      obtain rfl := Option.some.inj (hg'.symm.trans h)
      exact hne rfl
    · exact ⟨g, _, set_self h _, rfl, hP⟩

/-- A goroutine that moves on without a change of the property. -/
theorem hasTask_move (hnodup : (l.map Task.tag).Nodup) (h : l[g]? = some ⟨t, b, pc⟩) (hP : P pc' ↔ P pc) :
    HasTask (l.set g ⟨t, b, pc'⟩) t' P ↔ HasTask l t' P := by
  rw [hasTask_set hnodup h]
  constructor
  · rintro (⟨_, hold⟩ | ⟨rfl, hpc⟩)
    · exact hold
    · exact ⟨g, _, h, rfl, hP.mp hpc⟩
  · rintro ⟨g', k, hg', rfl, hk⟩
    by_cases ht : k.tag = t
    · obtain ⟨_, rfl⟩ := task_unique hnodup h hg' ht
      exact Or.inr ⟨rfl, hP.mpr hk⟩
    · exact Or.inl ⟨ht, g', k, hg', rfl, hk⟩

end Tasks

/-! ## The connection as the client sees it -/

/-- Whether the reply is on the wire. -/
def TaskPc.isReplied : TaskPc → Bool
  | .replied _ _ => true
  | _ => false

/-- A run of the connection is a run of the client, for which `out` is what the server has yet to reply to. -/
structure Follows (w : RpcCodec) (tr : List ConnEvent) (s : Conn) (out : List (Ttag × Bytes)) : Prop where
  reaches : Reaches demux (clientPart w tr) { s.clnt with out := out }
  unanswered : ∀ {t}, t ∈ out.map Prod.fst ↔
    HasTask s.tasks t (fun pc => pc.isReplied = false) ∨ t ∈ s.clnt.out.map Prod.fst
  replied : ∀ {t rep ok}, (t, rep, ok) ∈ answers (clientPart w tr) ↔ HasTask s.tasks t (· = .replied rep ok)
  distinct : ((s.tasks.map Task.msg ++ s.clnt.out).map Prod.fst).Nodup
  sent : ∀ m ∈ s.tasks.map Task.msg ++ s.clnt.out,
    ∃ c, .tag c m.1 ∈ clientPart w tr ∧ called (clientPart w tr) c = [m.2]

section Follows

variable {w : RpcCodec} {tr : List ConnEvent} {s s' : Conn} {out : List (Ttag × Bytes)} {e : ConnEvent}

theorem follows_init (w : RpcCodec) (clnt : String) : Follows w [] (connection w clnt).init [] where
  reaches := Run.nil
  unanswered := by
    intro t
    constructor
    · nofun
    · rintro (⟨_, _, hg, _⟩ | hmem)
      · cases hg
      · cases hmem
  replied := by
    intro t rep ok
    constructor
    · nofun
    · rintro ⟨_, _, hg, _⟩
      cases hg
  distinct := List.nodup_nil
  sent := nofun

theorem Follows.nodup (h : Follows w tr s out) : (s.tasks.map Task.tag).Nodup := by
  have hall := h.distinct
  rw [List.map_append, List.map_map] at hall
  exact (List.nodup_append.mp hall).1

/-- A tag that a request has is one that its call has written. -/
theorem Follows.wrote (h : Follows w tr s out) (hfew : issued (clientPart w tr) < 2 ^ 32) {t : Ttag}
    (ht : t ∈ (s.tasks.map Task.msg ++ s.clnt.out).map Prod.fst) : ∃ c, (s.clnt.caller c).wrote = some t := by
  refine (demuxOk h.reaches hfew).wrote t ?_
  rw [List.mem_append]
  rw [List.map_append, List.mem_append, List.map_map] at ht
  rcases ht with htask | hout
  · obtain ⟨k, hk, rfl⟩ := List.mem_map.mp htask
    obtain ⟨g, hg⟩ := List.mem_iff_getElem?.mp hk
    cases hpc : k.pc with
    | replied rep ok =>
        refine Or.inr (List.mem_map.mpr ⟨(k.tag, rep, ok), ?_, rfl⟩)
        exact h.replied.mpr ⟨g, k, hg, rfl, hpc⟩
    | _ =>
        refine Or.inl (h.unanswered.mpr (Or.inl ⟨g, k, hg, rfl, ?_⟩))
        rw [hpc]
        rfl
  · exact Or.inl (h.unanswered.mpr (Or.inr hout))

/-- A step the client does not see, and that leaves the requests where they are. -/
theorem Follows.same (h : Follows w tr s out) (hseen : e.seen w = none) (hclnt : s'.clnt = s.clnt)
    (htasks : s'.tasks = s.tasks) : Follows w (tr ++ [e]) s' out := by
  have hpart : clientPart w (tr ++ [e]) = clientPart w tr := filterMap_snoc_none hseen
  constructor
  · rw [hpart, hclnt]
    exact h.reaches
  · rw [hclnt, htasks]
    exact h.unanswered
  · rw [hpart, htasks]
    exact h.replied
  · rw [hclnt, htasks]
    exact h.distinct
  · rw [hpart, hclnt, htasks]
    exact h.sent

/-- A goroutine moves on, up to its reply. -/
theorem Follows.move (h : Follows w tr s out) (hseen : e.seen w = none) {g : Nat} {t : Ttag} {b : Bytes}
    {pc pc' : TaskPc} (hg : s.tasks[g]? = some ⟨t, b, pc⟩) (hpc : pc.isReplied = false)
    (hpc' : pc'.isReplied = false) : Follows w (tr ++ [e]) { s with tasks := s.tasks.set g ⟨t, b, pc'⟩ } out := by
  have hpart : clientPart w (tr ++ [e]) = clientPart w tr := filterMap_snoc_none hseen
  have hmsgs : (s.tasks.set g ⟨t, b, pc'⟩).map Task.msg = s.tasks.map Task.msg := map_set_same hg rfl
  have hne : ∀ rep ok, pc' = .replied rep ok ↔ pc = .replied rep ok := by
    intro rep ok
    constructor
    · rintro rfl
      cases hpc'
    · rintro rfl
      cases hpc
  constructor
  · rw [hpart]
    exact h.reaches
  · intro t'
    rw [h.unanswered, hasTask_move h.nodup hg (by rw [hpc, hpc'])]
  · intro t' rep ok
    rw [hpart, h.replied, hasTask_move h.nodup hg (hne rep ok)]
  · show ((List.map Task.msg (s.tasks.set g _) ++ _).map _).Nodup
    rw [hmsgs]
    exact h.distinct
  · rw [hpart]
    show ∀ m ∈ List.map Task.msg (s.tasks.set g _) ++ _, _
    rw [hmsgs]
    exact h.sent

/-- The server takes a request off the connection. -/
theorem Follows.receive (h : Follows w tr s out) (hseen : e.seen w = none) {t : Ttag} {b : Bytes}
    {rest : List (Ttag × Bytes)} (hout : s.clnt.out = (t, b) :: rest) :
    Follows w (tr ++ [e])
      { s with clnt := { s.clnt with out := rest }, tasks := s.tasks ++ [⟨t, b, .started⟩] } out := by
  have hpart : clientPart w (tr ++ [e]) = clientPart w tr := filterMap_snoc_none hseen
  have hmsgs : (s.tasks ++ [(⟨t, b, .started⟩ : Task)]).map Task.msg ++ rest = s.tasks.map Task.msg ++ s.clnt.out := by
    rw [hout, List.map_append, List.append_assoc]
    rfl
  constructor
  · rw [hpart]
    exact h.reaches
  · intro t'
    rw [h.unanswered, hasTask_snoc, hout, List.map_cons, List.mem_cons, or_assoc]
    show _ ↔ HasTask s.tasks t' _ ∨ (t' = t ∧ false = false) ∨ t' ∈ rest.map Prod.fst
    rw [and_iff_left rfl]
  · intro t' rep ok
    rw [hpart, h.replied, hasTask_snoc]
    refine (or_iff_left ?_).symm
    rintro ⟨_, hpc⟩
    cases hpc
  · show ((List.map Task.msg (s.tasks ++ _) ++ rest).map _).Nodup
    rw [hmsgs]
    exact h.distinct
  · rw [hpart]
    show ∀ m ∈ List.map Task.msg (s.tasks ++ _) ++ rest, _
    rw [hmsgs]
    exact h.sent

/-- The reply to a request is the peer's answer. -/
theorem Follows.reply (h : Follows w tr s out) {g : Nat} {t : Ttag} {b rep : Bytes} {ok : Bool}
    (hg : s.tasks[g]? = some ⟨t, b, .served rep ok⟩) :
    Follows w (tr ++ [.reply t rep ok])
      { s with clnt := { s.clnt with wire := s.clnt.wire ++ [(t, rep, ok)] },
               tasks := s.tasks.set g ⟨t, b, .replied rep ok⟩ } (out.filter (fun m => m.1 ≠ t)) := by
  have hpart : clientPart w (tr ++ [.reply t rep ok]) = clientPart w tr ++ [.answer t rep ok] :=
    filterMap_snoc (ConnEvent.seen w) tr _
  have hmsgs : (s.tasks.set g ⟨t, b, .replied rep ok⟩).map Task.msg = s.tasks.map Task.msg := map_set_same hg rfl
  have ht : t ∈ out.map Prod.fst := h.unanswered.mpr (Or.inl ⟨g, _, hg, rfl, rfl⟩)
  -- the request is in the server, so no other one on the connection has its tag
  have hnot : t ∉ s.clnt.out.map Prod.fst := by
    have hall := h.distinct
    rw [List.map_append, List.nodup_append] at hall
    intro hmem
    refine hall.2.2 t ?_ t hmem rfl
    exact List.mem_map.mpr ⟨(t, b), List.mem_map.mpr ⟨_, List.mem_iff_getElem?.mpr ⟨g, hg⟩, rfl⟩, rfl⟩
  have hreach : Reaches demux (clientPart w tr ++ [.answer t rep ok])
      { s.clnt with out := out.filter (fun m => m.1 ≠ t), wire := s.clnt.wire ++ [(t, rep, ok)] } :=
    h.reaches.snoc (.answer ht)
  constructor
  · rw [hpart]
    exact hreach
  · intro t'
    have hfilter : t' ∈ (out.filter (fun m => m.1 ≠ t)).map Prod.fst ↔ t' ≠ t ∧ t' ∈ out.map Prod.fst := by
      simp only [List.mem_map, List.mem_filter, decide_eq_true_eq]
      constructor
      · rintro ⟨m, ⟨hm, hne⟩, rfl⟩
        exact ⟨hne, m, hm, rfl⟩
      · rintro ⟨hne, m, hm, rfl⟩
        exact ⟨m, ⟨hm, hne⟩, rfl⟩
    rw [hfilter, h.unanswered, hasTask_set h.nodup hg]
    constructor
    · rintro ⟨hne, hold | hold⟩
      · exact Or.inl (Or.inl ⟨hne, hold⟩)
      · exact Or.inr hold
    · rintro ((⟨hne, hold⟩ | ⟨_, hpc⟩) | hold)
      · exact ⟨hne, Or.inl hold⟩
      · cases hpc
      · refine ⟨?_, Or.inr hold⟩
        rintro rfl
        exact hnot hold
  · intro t' rep' ok'
    rw [hpart, answers_snoc, List.mem_append, h.replied, hasTask_set h.nodup hg]
    constructor
    · rintro (⟨g', k, hg', rfl, hk⟩ | hnew)
      · refine Or.inl ⟨fun heq => ?_, g', k, hg', rfl, hk⟩
        obtain ⟨_, rfl⟩ := task_unique h.nodup hg hg' heq
        cases hk
      · cases List.mem_singleton.mp hnew
        exact Or.inr ⟨rfl, rfl⟩
    · rintro (⟨_, hold⟩ | ⟨rfl, hpc⟩)
      · exact Or.inl hold
      · cases hpc
        exact Or.inr (List.mem_singleton_self _)
  · show ((List.map Task.msg (s.tasks.set g _) ++ _).map _).Nodup
    rw [hmsgs]
    exact h.distinct
  · show ∀ m ∈ List.map Task.msg (s.tasks.set g _) ++ _, _
    rw [hmsgs, hpart]
    intro m hm
    obtain ⟨c, htag, hcalled⟩ := h.sent m hm
    refine ⟨c, List.mem_append_left _ htag, ?_⟩
    rw [called, filterMap_snoc_none rfl]
    exact hcalled

/-- A step of the client is one with the server as its peer. -/
theorem Follows.client (h : Follows w tr s out) (hfew : issued (clientPart w tr) < 2 ^ 32) {e' : Event}
    {clnt' : State} (hseen : e.seen w = some e') (hpeer : e'.answer? = none) (hs : Step s.clnt e' clnt') :
    ∃ out', Follows w (tr ++ [e]) { s with clnt := clnt' } out' := by
  have hpart : clientPart w (tr ++ [e]) = clientPart w tr ++ [e'] := by
    rw [clientPart, filterMap_snoc, hseen]
    rfl
  -- the client adds at most one request, on either side
  obtain ⟨m, hstep, hout, hreg⟩ := hs.withOut hpeer out
  have hreach : Reaches demux (clientPart w tr ++ [e']) { clnt' with out := out ++ m.toList } := h.reaches.snoc hstep
  have hmsgs : s.tasks.map Task.msg ++ clnt'.out = (s.tasks.map Task.msg ++ s.clnt.out) ++ m.toList := by
    rw [hout, List.append_assoc]
  refine ⟨out ++ m.toList, hpart ▸ hreach, ?_, ?_, ?_, ?_⟩
  · intro t
    show _ ↔ HasTask s.tasks t _ ∨ t ∈ clnt'.out.map Prod.fst
    rw [hout, List.map_append, List.map_append, List.mem_append, List.mem_append, h.unanswered, or_assoc]
  · rw [hpart, answers_snoc, hpeer, Option.toList_none, List.append_nil]
    exact h.replied
  · show ((s.tasks.map Task.msg ++ clnt'.out).map Prod.fst).Nodup
    rw [hmsgs, List.map_append, List.nodup_append]
    refine ⟨h.distinct, ?_, ?_⟩
    · cases m with
      | none => exact List.nodup_nil
      | some m => exact List.nodup_singleton _
    · -- the tag is the call's own, and the call has written nothing so far
      rintro t hold t' hnew rfl
      obtain ⟨⟨_, b⟩, hm, rfl⟩ := List.mem_map.mp hnew
      obtain ⟨c, hc⟩ := hreg _ b (Option.mem_toList.mp hm)
      obtain ⟨c', hwrote⟩ := h.wrote hfew hold
      obtain rfl := (demuxOk h.reaches hfew).tagUnique (Caller.tag_of_wrote hwrote)
        (show (s.clnt.caller c).tag = _ by rw [hc]; rfl)
      rw [hc] at hwrote
      cases hwrote
  · show ∀ m ∈ s.tasks.map Task.msg ++ clnt'.out, _
    rw [hmsgs, hpart]
    have hold : ∀ t b, (∃ c, .tag c t ∈ clientPart w tr ∧ called (clientPart w tr) c = [b]) →
        ∃ c, .tag c t ∈ clientPart w tr ++ [e'] ∧ called (clientPart w tr ++ [e']) c = [b] := by
      rintro t b ⟨c, htag, hcalled⟩
      exact ⟨c, List.mem_append_left _ htag, called_keep hreach hcalled⟩
    intro m' hm'
    refine hold m'.1 m'.2 ?_
    rcases List.mem_append.mp hm' with hmem | hnew
    · exact h.sent m' hmem
    -- the request is new: its call has just been at the write, with its own tag and request
    · obtain ⟨c, hc⟩ := hreg m'.1 m'.2 (Option.mem_toList.mp hnew)
      refine ⟨c, (callerTrace h.reaches c).tag ?_, (calledOnce h.reaches c).request ?_⟩
      · show (s.clnt.caller c).tag = _
        rw [hc]
        rfl
      · show (s.clnt.caller c).request = _
        rw [hc]
        rfl

/-- **One step of the connection is followed by the client**, in a step of its own or in none. -/
theorem Follows.step (h : Follows w tr s out) (hfew : issued (clientPart w tr) < 2 ^ 32) (hs : ConnStep w s e s') :
    ∃ out', Follows w (tr ++ [e]) s' out' := by
  cases hs with
  | rpc hcall => exact h.client hfew rfl rfl hcall
  | @client e' _ hown hstep =>
      refine h.client hfew rfl ?_ hstep
      cases e' with
      | answer _ _ _ => cases hown
      | _ => rfl
  | accept _ _ _ => exact ⟨out, h.same rfl rfl rfl⟩
  | acceptFails _ => exact ⟨out, h.same rfl rfl rfl⟩
  | receive _ hout => exact ⟨out, h.receive rfl hout⟩
  | receiveFails _ => exact ⟨out, h.same rfl rfl rfl⟩
  | dispatch _ hg _ => exact ⟨out, h.move rfl hg rfl rfl⟩
  | malformed _ _ _ => exact ⟨out, h.same rfl rfl rfl⟩
  | dispatched _ hg => exact ⟨out, h.move rfl hg rfl rfl⟩
  | reply _ hg => exact ⟨_, h.reply hg⟩
  | replyLost _ hg => exact ⟨out, h.move rfl hg rfl rfl⟩
  | close => exact ⟨out, h.same rfl rfl rfl⟩
  | die => exact ⟨out, h.same rfl rfl rfl⟩

theorem issued_le_snoc (tr : List ConnEvent) (e : ConnEvent) :
    issued (clientPart w tr) ≤ issued (clientPart w (tr ++ [e])) := by
  cases hseen : e.seen w with
  | none => rw [clientPart, clientPart, filterMap_snoc_none hseen]
  | some e' =>
      have hpart : clientPart w (tr ++ [e]) = clientPart w tr ++ [e'] := by
        rw [clientPart, filterMap_snoc, hseen]
        rfl
      rw [hpart, issued_snoc]
      exact Nat.le_add_right ..

/-- **Every run of the connection is one of the client**, as long as the tags do not come round. -/
theorem follows {clnt : String} (hrun : Reaches (connection w clnt) tr s)
    (hfew : issued (clientPart w tr) < 2 ^ 32) : ∃ out, Follows w tr s out := by
  revert hfew
  refine Reaches.invariant (P := fun tr s => issued (clientPart w tr) < 2 ^ 32 → ∃ out, Follows w tr s out) ?_ ?_ hrun
  · exact fun _ => ⟨[], follows_init w clnt⟩
  · intro tr s e s' _ ih hs hfew
    have hbefore := Nat.lt_of_le_of_lt (issued_le_snoc tr e) hfew
    obtain ⟨out, h⟩ := ih hbefore
    exact h.step hbefore hs

end Follows

end Demux
end DistributedLabs
