import DistributedLabs.Raft.CheckLogs
import DistributedLabs.Lib.Stream

/-!
# `Raft.Applier` — the servers of a Raft test

`raft1/server.go`: each server runs in a process of its own and reads the committed commands off `applyCh`. It reports
every command to the tester (`CheckLogs`), posts an error if the tester or the index says so (`ApplyErr`), makes a
snapshot every ten commands, and takes over the snapshots that Raft sends up or that it finds when it is started
again (`ingestSnap`, `IngestLog`).

To start a server the tester waits until its `newRfsrv` has returned (`waitInit` in `StartServer`), the `IngestLog` in
there included. To stop it the tester has it close its connection and copies what it has persisted; then the process
is killed. An RPC that is under way at that moment fails in the server, but the tester may still execute it, at any
later time: these are the `late` calls.

Raft itself is not part of the model. It sends up whatever it likes (`deliver`) and persists whatever it likes
(`persist`).

An error is the text that the source makes with `Sprintf`, and the empty text is none. A process that is killed is gone
at once, with whatever its goroutine was doing; what it has persisted is what the tester has copied before.
-/

namespace DistributedLabs
namespace Raft

open Lib

/-! ## The code -/

abbrev Bytes := List UInt8

/-- `labgob` on a snapshot: the index, then the log up to it. -/
structure SnapCodec (Cmd : Type) where
  encode : Int → List Cmd → Bytes
  decode : Bytes → Option (Int × List Cmd)
  decode_encode : ∀ k xlog, decode (encode k xlog) = some (k, xlog)
  encode_ne : ∀ k xlog, encode k xlog ≠ []

/-- Index and log as one number, after a byte that makes sure that there is one. -/
def plainSnapCodec (Cmd : Type) [Encodable Cmd] : SnapCodec Cmd where
  encode k xlog := 1 :: unary (k, xlog)
  decode b := readUnary (Int × List Cmd) b.tail
  decode_encode k xlog := readUnary_unary (k, xlog)
  encode_ne _ _ := nofun

/-- A message on `applyCh`, with the fields of a command in `cmd`. A snapshot may be `nil`. -/
structure Msg (Cmd : Type) where
  commandValid : Bool
  cmd : ApplyMsg Cmd
  snapshotValid : Bool
  snapshot : Option Bytes
  snapshotIndex : Int

/-- `rfsrv`: the two fields that the applier keeps. -/
structure Rfsrv (Cmd : Type) where
  lastApplied : Int
  log : Log Cmd

/-- An RPC to the tester. -/
inductive Call (Cmd : Type) where
  | checkLogs (m : ApplyMsg Cmd)
  | ingestLog (xlog : Log Cmd)
  | applyErr (errMsg : String)

/-- Where the goroutine of a server is: at the head of its loop, in an RPC, or before `rf.Snapshot`. -/
inductive Pc (Cmd : Type) where
  | recv
  | checkLogs (m : ApplyMsg Cmd)
  | snapshot (index : Int) (errMsg : String)
  | ingestLog (errMsg : String)
  | applyErr (errMsg : String) (fatal : Bool)
  | exited

/-- How far the RPC is that a server waits for. A closed connection does not send it. -/
inductive Rpc where
  | unsent
  | sent
  | done (errMsg : String) (prevok : Bool)
deriving DecidableEq, Repr

/-- The process of a server: `closed` is its connection to the tester, `copy` what `CheckpointPersister` has copied, and
    `up` says that `newRfsrv` has returned. Of the persister only the snapshot matters here. -/
structure Proc (Cmd : Type) where
  rs : Rfsrv Cmd
  pc : Pc Cmd
  rpc : Rpc
  closed : Bool
  persister : Bytes
  copy : Option Bytes
  up : Bool

/-- A test: what `labgob` does, the `nil` of `any`, the `%v` of `Sprintf`, and whether there are snapshots. -/
structure Setup (Cmd : Type) where
  codec : SnapCodec Cmd
  nil : Cmd
  fmt : Cmd → String
  snapshot : Bool

/-- `SnapShotInterval`: how many commands there are between two snapshots. -/
def SnapShotInterval : Int := 10

section Server

variable {Cmd : Type}

/-- A map with the elements of a slice. -/
def Log.ofList (xlog : List Cmd) : Log Cmd := fun j => if 0 ≤ j then xlog[j.toNat]? else none

/-- The slice that goes into a snapshot; a map has `nil` where it has no entry. -/
def Log.xlog (nil : Cmd) (log : Log Cmd) (index : Int) : List Cmd :=
  (List.range (index + 1).toNat).map (fun j : Nat => (log (j : Int)).getD nil)

/-- `ingestSnap`: the server after it, and an error. The index -1 stands for no expectation. -/
def Rfsrv.ingestSnap (w : SnapCodec Cmd) (me : Nat) (rs : Rfsrv Cmd) (snapshot : Option Bytes) (index : Int) :
    Rfsrv Cmd × String :=
  match snapshot with
  | none => (rs, "nil snapshot")
  | some data =>
      match w.decode data with
      | none => (rs, "failed to decode snapshot")
      | some (lastIncludedIndex, xlog) =>
          if index ≠ -1 ∧ index ≠ lastIncludedIndex then
            (rs, "server " ++ toString me ++ " snapshot doesn't match m.SnapshotIndex")
          else (⟨lastIncludedIndex, Log.ofList xlog⟩, "")

/-- The RPC a process is in. -/
def Proc.call (p : Proc Cmd) : Option (Call Cmd) :=
  match p.pc with
  | .checkLogs m => some (.checkLogs m)
  | .ingestLog _ => some (.ingestLog p.rs.log)
  | .applyErr errMsg _ => some (.applyErr errMsg)
  | _ => none

theorem Proc.call_cases {p : Proc Cmd} {k : Call Cmd} (hk : p.call = some k) :
    (∃ m, p.pc = .checkLogs m ∧ k = .checkLogs m) ∨ (∃ err, p.pc = .ingestLog err ∧ k = .ingestLog p.rs.log) ∨
      ∃ err fatal, p.pc = .applyErr err fatal ∧ k = .applyErr err := by
  unfold Proc.call at hk
  split at hk
  · exact Or.inl ⟨_, ‹_›, (Option.some.inj hk).symm⟩
  · exact Or.inr (Or.inl ⟨_, ‹_›, (Option.some.inj hk).symm⟩)
  · exact Or.inr (Or.inr ⟨_, _, ‹_›, (Option.some.inj hk).symm⟩)
  · cases hk

/-- The process goes to another place; an RPC is sent from there if the connection is open. -/
def Proc.goto (p : Proc Cmd) (pc : Pc Cmd) : Proc Cmd :=
  { p with pc := pc, rpc := if p.closed then .unsent else .sent }

/-- The end of the loop's body. -/
def Proc.post (p : Proc Cmd) (errMsg : String) : Proc Cmd :=
  if errMsg ≠ "" then p.goto (.applyErr errMsg false) else p.goto .recv

/-- What `applierSnap` does with a command after it has been checked. -/
def Proc.apply (p : Proc Cmd) (m : ApplyMsg Cmd) (errMsg : String) : Proc Cmd :=
  let p' := { p with rs := ⟨m.commandIndex, Function.update p.rs.log m.commandIndex (some m.command)⟩ }
  if (m.commandIndex + 1) % SnapShotInterval = 0 then p'.goto (.snapshot m.commandIndex errMsg)
  else p'.post errMsg

/-- The error of a command whose predecessor the tester has not heard of. -/
def outOfOrder (me : Nat) (index : Int) : String :=
  "server " ++ toString me ++ " apply out of order " ++ toString index

theorem outOfOrder_ne (me : Nat) (index : Int) : outOfOrder me index ≠ "" := by
  unfold outOfOrder
  simp [String.append_assoc]

/-- The error of `applierSnap` for a command that is not the next one. -/
def unexpectedIndex (me : Nat) (expected got : Int) : String :=
  "server " ++ toString me ++ " apply out of order, expected index " ++ toString expected ++ ", got " ++ toString got

variable (S : Setup Cmd)

/-- The loop's body, up to the first RPC: of `applierSnap` if there are snapshots, of `applier` if not. -/
def Proc.receive (me : Nat) (p : Proc Cmd) (m : Msg Cmd) : Proc Cmd :=
  if S.snapshot then
    if m.snapshotValid then
      let r := p.rs.ingestSnap S.codec me m.snapshot m.snapshotIndex
      { p with rs := r.1 }.goto (.ingestLog r.2)
    else if m.commandValid then
      if m.cmd.commandIndex ≠ p.rs.lastApplied + 1 then
        p.apply m.cmd (unexpectedIndex me (p.rs.lastApplied + 1) m.cmd.commandIndex)
      else p.goto (.checkLogs m.cmd)
    else p
  else if m.commandValid then p.goto (.checkLogs m.cmd)
  else p

/-- The loop's body from the return of an RPC on. -/
def Proc.resume (me : Nat) (p : Proc Cmd) (errMsg : String) (prevok : Bool) : Proc Cmd :=
  match p.pc with
  | .checkLogs m =>
      if S.snapshot then
        p.apply m (if errMsg ≠ "ErrRPC" ∧ m.commandIndex > 1 ∧ prevok = false then outOfOrder me m.commandIndex
          else errMsg)
      else p.post (if m.commandIndex > 1 ∧ prevok = false then outOfOrder me m.commandIndex else errMsg)
  -- the one in `newRfsrv` is the last thing that one does
  | .ingestLog err => { p with up := true }.post err
  | .applyErr _ fatal => if fatal then p.goto .exited else p.goto .recv
  | _ => p

/-- `newRfsrv`, in a new process with what was saved of the last one. -/
def newRfsrv (me : Nat) (sn : Bytes) : Proc Cmd :=
  let p : Proc Cmd := ⟨⟨0, fun _ => none⟩, .recv, .unsent, false, sn, none, false⟩
  if S.snapshot = true ∧ sn ≠ [] then
    let r := p.rs.ingestSnap S.codec me (some sn) (-1)
    if r.2 ≠ "" then p.goto (.applyErr r.2 true) else { p with rs := r.1 }.goto (.ingestLog "")
  else { p with up := true }

variable {S}

theorem newRfsrv_fresh {sn : Bytes} (h : ¬ (S.snapshot = true ∧ sn ≠ [])) (me : Nat) :
    newRfsrv S me sn = ⟨⟨0, fun _ => none⟩, .recv, .unsent, false, sn, none, true⟩ := by
  unfold newRfsrv
  rw [if_neg h]

end Server

/-! ## The tester and its servers -/

/-- The tester with its servers, what was saved of each, and the RPCs nobody waits for any more. -/
structure Cluster (n : Nat) (Cmd : Type) where
  test : Test n Cmd
  applyErr : Fin n → String
  proc : Fin n → Option (Proc Cmd)
  saved : Fin n → Bytes
  late : List (Fin n × Call Cmd)

/-- What happens in a test. -/
inductive SrvEvent (n : Nat) (Cmd : Type) where
  | start (i : Fin n) (index : Int)
  | deliver (i : Fin n) (m : Msg Cmd)
  | exec (i : Fin n) (k : Call Cmd) (errMsg : String) (prevok : Bool)
  | ret (i : Fin n)
  | fail (i : Fin n)
  | snapshot (i : Fin n) (index : Int) (data : Bytes)
  | persist (i : Fin n) (data : Bytes)
  | close (i : Fin n)
  | checkpoint (i : Fin n)
  | kill (i : Fin n)
  | late (i : Fin n) (k : Call Cmd) (errMsg : String) (prevok : Bool)

section Cluster

variable {n : Nat} {Cmd : Type}

/-- The process of one server is replaced. -/
def Cluster.setProc (s : Cluster n Cmd) (i : Fin n) (p : Option (Proc Cmd)) : Cluster n Cmd :=
  { s with proc := Function.update s.proc i p }

/-- The RPC of a process that does not wait for it any more. -/
def Cluster.abandon (s : Cluster n Cmd) (i : Fin n) (p : Proc Cmd) : Cluster n Cmd :=
  if p.rpc = .sent then { s with late := s.late ++ (p.call.map (fun k => (i, k))).toList } else s

variable [DecidableEq Cmd] (S : Setup Cmd)

/-- What the tester does for an RPC, and what it returns. -/
def Cluster.exec (s : Cluster n Cmd) (i : Fin n) : Call Cmd → Cluster n Cmd × String × Bool
  | .checkLogs m =>
      let r := s.test.checkLogs S.fmt i m
      ({ s with test := r.1 }, r.2)
  | .ingestLog xlog => ({ s with test := s.test.ingestLog i xlog }, "", false)
  | .applyErr errMsg => ({ s with applyErr := Function.update s.applyErr i errMsg }, "", false)

/-- One step of a test. `start`, `close`, `checkpoint` and `kill` are the tester's, `deliver` and `persist` are
Raft's. -/
inductive SrvStep : Cluster n Cmd → SrvEvent n Cmd → Cluster n Cmd → Prop where
  | start {s i} : s.proc i = none →
      SrvStep s (.start i (newRfsrv S i (s.saved i)).rs.lastApplied) (s.setProc i (some (newRfsrv S i (s.saved i))))
  | deliver {s i p m} : s.proc i = some p → p.pc = .recv →
      SrvStep s (.deliver i m) (s.setProc i (some (p.receive S i m)))
  | exec {s i p k s' err ok} : s.proc i = some p → p.call = some k → p.rpc = .sent → s.exec S i k = (s', err, ok) →
      SrvStep s (.exec i k err ok) (s'.setProc i (some { p with rpc := .done err ok }))
  | ret {s i p err ok} : s.proc i = some p → p.rpc = .done err ok →
      SrvStep s (.ret i) (s.setProc i (some (p.resume S i err ok)))
  | fail {s i p k} : s.proc i = some p → p.closed = true → p.call = some k →
      SrvStep s (.fail i) ((s.abandon i p).setProc i (some (p.resume S i "ErrRPC" false)))
  | snapshot {s i p index err} : s.proc i = some p → p.pc = .snapshot index err →
      SrvStep s (.snapshot i index (S.codec.encode index (p.rs.log.xlog S.nil index)))
        (s.setProc i (some (p.post err)))
  | persist {s i p data} : s.proc i = some p →
      SrvStep s (.persist i data) (s.setProc i (some { p with persister := data }))
  -- `CheckpointPersister` closes the connection and then copies; the process goes on until `kill`. It does not come
  -- before `InitWait` has returned, and to a process that has exited it is fatal for the tester
  | close {s i p} : s.proc i = some p → p.up = true →
      SrvStep s (.close i) (s.setProc i (some { p with closed := true }))
  | checkpoint {s i p} : s.proc i = some p → p.closed = true →
      SrvStep s (.checkpoint i) (s.setProc i (some { p with copy := some p.persister }))
  | kill {s i p data} : s.proc i = some p → p.copy = some data →
      SrvStep s (.kill i) { (s.abandon i p).setProc i none with saved := Function.update s.saved i data }
  | late {s i k l₁ l₂ s' err ok} : s.late = l₁ ++ (i, k) :: l₂ → s.exec S i k = (s', err, ok) →
      SrvStep s (.late i k err ok) { s' with late := l₁ ++ l₂ }

/-- A test with `n` servers, none of which has been started. -/
def rfTest : LTS (Cluster n Cmd) (SrvEvent n Cmd) where
  init := ⟨makeTest, fun _ => "", fun _ => none, fun _ => [], []⟩
  step := SrvStep S

/-- One round of the loop of `nCommitted`. -/
def Cluster.countCommitted (s : Cluster n Cmd) (index : Int) (found : Nat × Cmd) (i : Fin n) :
    Except String (Nat × Cmd) :=
  if s.applyErr i ≠ "" then .error (s.applyErr i)
  else
    match s.test.logs i index with
    | none => .ok found
    | some cmd1 =>
        if found.1 > 0 ∧ found.2 ≠ cmd1 then
          .error ("committed values at index " ++ toString index ++ " do not match (" ++ S.fmt found.2 ++ " != "
            ++ S.fmt cmd1 ++ ")")
        else .ok (found.1 + 1, cmd1)

/-- How many servers have committed an index, and which command; an error is a `Fatal`. -/
def Cluster.nCommitted (s : Cluster n Cmd) (index : Int) : Except String (Nat × Cmd) :=
  (List.finRange n).foldlM (s.countCommitted S index) (0, S.nil)

end Cluster

end Raft
end DistributedLabs
