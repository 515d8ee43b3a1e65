import DistributedLabs.Raft.CommonLog

/-!
# `Raft.GoodRun` — runs in which Raft works, and what the tester says of them

`no_false_alarm` is about all runs in which Raft gives every server the one log. This module also says what such runs
there are, since the result would be an empty one if the tester's servers could do little. A `GoodRun` can be carried
on at any server, and each piece says where that server is at its end:

* `GoodRun.startFresh`, `GoodRun.startAt` — a server is started, with nothing or with a snapshot;
* `GoodRun.advance` — it applies one command more, and makes a snapshot if it is time for one;
* `GoodRun.install`, `GoodRun.takeOver` — Raft sends up a snapshot, and the server takes it over;
* `GoodRun.stop` — the tester stops it.

Steps of one server leave the others alone (`SrvStep.elsewhere`), so the pieces can be put together for several
servers (`Extends`).
-/

namespace DistributedLabs
namespace Raft

open Lib

/-! ## Carrying on -/

section Frame

variable {n : Nat} {Cmd : Type}

/-- The server a step is about. -/
def SrvEvent.server : SrvEvent n Cmd → Fin n
  | .start i _ | .deliver i _ | .exec i _ _ _ | .ret i | .fail i | .snapshot i _ _ | .persist i _ | .close i
  | .checkpoint i | .kill i | .late i _ _ _ => i

/-- Steps that are not up to Raft, and no RPC that comes late. -/
def SrvEvent.routine : SrvEvent n Cmd → Bool
  | .deliver _ _ | .persist _ _ | .late _ _ _ _ => false
  | _ => true

/-- A snapshot that Raft sends up is ahead of the server. -/
def Ahead (tr : List (SrvEvent n Cmd)) : Prop :=
  ∀ pre i m post, tr = pre ++ .deliver i m :: post → m.snapshotValid = true → position pre i < m.snapshotIndex

theorem ahead_snoc {tr : List (SrvEvent n Cmd)} {e : SrvEvent n Cmd} (h : Ahead tr)
    (hlast : ∀ i m, e = .deliver i m → m.snapshotValid = true → position tr i < m.snapshotIndex) :
    Ahead (tr ++ [e]) := by
  intro pre i m post htr
  rcases snoc_eq_append_cons htr with ⟨rfl, rfl, -⟩ | ⟨post', htr', -⟩
  · exact hlast i m rfl
  · exact h pre i m post' htr'

@[simp] theorem setProc_proc (s : Cluster n Cmd) (i : Fin n) (p : Option (Proc Cmd)) : (s.setProc i p).proc i = p :=
  Function.update_self ..

@[simp] theorem abandon_proc (s : Cluster n Cmd) (i : Fin n) (p : Proc Cmd) : (s.abandon i p).proc = s.proc := by
  unfold Cluster.abandon
  split <;> rfl

@[simp] theorem abandon_saved (s : Cluster n Cmd) (i : Fin n) (p : Proc Cmd) : (s.abandon i p).saved = s.saved := by
  unfold Cluster.abandon
  split <;> rfl

variable [DecidableEq Cmd] {S : Setup Cmd} {C : Int → Cmd} {tr tr' tr'' : List (SrvEvent n Cmd)}
  {s s' s'' : Cluster n Cmd} {e : SrvEvent n Cmd} {i : Fin n}

/-- An RPC is executed at the tester and nowhere else. -/
theorem exec_rest {k : Call Cmd} {err : String} {ok : Bool} (h : s.exec S i k = (s', err, ok)) :
    s'.proc = s.proc ∧ s'.saved = s.saved ∧ s'.late = s.late := by
  cases k <;> obtain ⟨rfl, -⟩ := Prod.mk.inj h <;> exact ⟨rfl, rfl, rfl⟩

/-- **A step of one server leaves the others alone.** -/
theorem SrvStep.elsewhere (h : SrvStep S s e s') {j : Fin n} (hj : j ≠ e.server) :
    s'.proc j = s.proc j ∧ s'.saved j = s.saved j ∧ ∀ b, e.moves j b = b := by
  cases h with
  | start _ => exact ⟨Function.update_of_ne hj .., rfl, fun _ => if_neg hj.symm⟩
  | deliver _ _ => exact ⟨Function.update_of_ne hj .., rfl, fun _ => if_neg hj.symm⟩
  | exec _ _ _ hexec =>
      obtain ⟨hproc, hsaved, -⟩ := exec_rest hexec
      refine ⟨(Function.update_of_ne hj ..).trans (congrFun hproc j), congrFun hsaved j, fun _ => rfl⟩
  | fail _ _ _ =>
      refine ⟨(Function.update_of_ne hj ..).trans ?_, ?_, fun _ => rfl⟩
      · rw [abandon_proc]
      · exact congrFun (abandon_saved ..) j
  | kill _ _ =>
      refine ⟨(Function.update_of_ne hj ..).trans ?_, Function.update_of_ne hj .., fun _ => rfl⟩
      rw [abandon_proc]
  | late _ hexec =>
      obtain ⟨hproc, hsaved, -⟩ := exec_rest hexec
      exact ⟨congrFun hproc j, congrFun hsaved j, fun _ => rfl⟩
  | _ => exact ⟨Function.update_of_ne hj .., rfl, fun _ => rfl⟩

variable (S C) in
/-- A run in which Raft works and no `IngestLog` comes late. -/
structure GoodRun (tr : List (SrvEvent n Cmd)) (s : Cluster n Cmd) : Prop where
  run : Reaches (rfTest S) tr s
  one : OneLog C tr
  ahead : Ahead tr
  late : NoLateIngest tr

theorem GoodRun.ok (h : GoodRun S C tr s) : ClusterOk S C tr s := clusterOk h.run h.one h.late

theorem goodRun_nil : GoodRun S C [] (rfTest (n := n) S).init where
  run := Run.nil
  one pre e post h := by simp at h
  ahead pre i m post h := by simp at h
  late := nofun

variable (S C) in
/-- A good run is carried on by steps of one server. -/
structure Extends (i : Fin n) (tr : List (SrvEvent n Cmd)) (s : Cluster n Cmd) (tr' : List (SrvEvent n Cmd))
    (s' : Cluster n Cmd) : Prop where
  good : GoodRun S C tr' s'
  subset : tr ⊆ tr'
  proc : ∀ {j}, j ≠ i → s'.proc j = s.proc j
  saved : ∀ {j}, j ≠ i → s'.saved j = s.saved j
  position : ∀ {j}, j ≠ i → position tr' j = position tr j

theorem GoodRun.here (h : GoodRun S C tr s) (i : Fin n) : Extends S C i tr s tr s :=
  ⟨h, fun _ he => he, fun _ => rfl, fun _ => rfl, fun _ => rfl⟩

theorem Extends.trans (h : Extends S C i tr s tr' s') (h' : Extends S C i tr' s' tr'' s'') :
    Extends S C i tr s tr'' s'' where
  good := h'.good
  subset _ he := h'.subset (h.subset he)
  proc hj := (h'.proc hj).trans (h.proc hj)
  saved hj := (h'.saved hj).trans (h.saved hj)
  position hj := (h'.position hj).trans (h.position hj)

/-- Carried on by one step, which Raft may do if it is up to Raft. -/
theorem Extends.snoc (h : Extends S C i tr s tr' s') (hstep : SrvStep S s' e s'') (hserver : e.server = i)
    (hallowed : Allowed C tr' e)
    (hahead : ∀ i m, e = .deliver i m → m.snapshotValid = true → Raft.position tr' i < m.snapshotIndex)
    (hlate : ∀ i xlog err ok, e ≠ .late i (.ingestLog xlog) err ok) : Extends S C i tr s (tr' ++ [e]) s'' where
  good := {
    run := h.good.run.snoc hstep
    one := oneLog_snoc.mpr ⟨h.good.one, hallowed⟩
    ahead := ahead_snoc h.good.ahead hahead
    late := fun i xlog err ok hmem => by
      rcases List.mem_append.mp hmem with hold | hnew
      · exact h.good.late i xlog err ok hold
      · exact hlate i xlog err ok (List.mem_singleton.mp hnew).symm }
  subset _ he := List.mem_append_left _ (h.subset he)
  proc hj := (hstep.elsewhere (hserver ▸ hj)).1.trans (h.proc hj)
  saved hj := (hstep.elsewhere (hserver ▸ hj)).2.1.trans (h.saved hj)
  position hj := by rw [position_snoc, (hstep.elsewhere (hserver ▸ hj)).2.2, h.position hj]

/-- Most steps ask for nothing. -/
theorem Extends.routine (h : Extends S C i tr s tr' s') (hstep : SrvStep S s' e s'') (hserver : e.server = i)
    (hroutine : e.routine = true) : Extends S C i tr s (tr' ++ [e]) s'' := by
  cases e with
  | deliver _ _ => cases hroutine
  | persist _ _ => cases hroutine
  | late _ _ _ _ => cases hroutine
  | _ => exact h.snoc hstep hserver trivial nofun nofun

omit [DecidableEq Cmd] in
theorem position_stays (he : ∀ b, e.moves i b = b) : position (tr ++ [e]) i = position tr i := by
  rw [position_snoc, he]

end Frame

/-! ## The pieces -/

section Pieces

variable {n : Nat} {Cmd : Type} [DecidableEq Cmd] {S : Setup Cmd} {C : Int → Cmd}
  {tr : List (SrvEvent n Cmd)} {s s' : Cluster n Cmd} {e : SrvEvent n Cmd} {i : Fin n} {p : Proc Cmd}

/-- A process that is up and waits for a message. -/
structure Proc.Waits (p : Proc Cmd) : Prop where
  connected : p.closed = false
  recv : p.pc = .recv
  up : p.up = true

omit [DecidableEq Cmd] in
theorem Proc.Waits.goto_rpc (hw : p.Waits) (pc : Pc Cmd) : (p.goto pc).rpc = .sent :=
  if_neg (by rw [hw.connected]; exact Bool.false_ne_true)

/-- The next command, as Raft sends it up. -/
def nextCmd (C : Int → Cmd) (pos : Int) : Msg Cmd := ⟨true, ⟨C (pos + 1), pos + 1⟩, false, none, 0⟩

omit [DecidableEq Cmd] in
theorem allowed_nextCmd (tr : List (SrvEvent n Cmd)) (i : Fin n) :
    Allowed C tr (.deliver i (nextCmd C (position tr i))) :=
  ⟨nofun, fun _ _ => rfl, nofun⟩

omit [DecidableEq Cmd] in
theorem position_nextCmd (tr : List (SrvEvent n Cmd)) (i : Fin n) :
    position (tr ++ [.deliver i (nextCmd C (position tr i))]) i = position tr i + 1 := by
  rw [position_snoc]
  exact if_pos rfl

/-- A server that waits calls the tester about the next command. -/
theorem GoodRun.receive_nextCmd (h : GoodRun S C tr s) (hs : S.snapshot = true) (hp : s.proc i = some p)
    (hw : p.Waits) : p.receive S i (nextCmd C (position tr i))
      = p.goto (.checkLogs ⟨C (position tr i + 1), position tr i + 1⟩) := by
  have hrs := (h.ok.procs hp).rs hs
  rw [hw.recv] at hrs
  have hnext : ¬ (position tr i + 1 ≠ p.rs.lastApplied + 1) := by
    rw [hrs.applied]
    exact fun hne => hne rfl
  unfold Proc.receive nextCmd
  rw [if_pos hs, if_neg Bool.false_ne_true, if_pos rfl, if_neg hnext]

omit [DecidableEq Cmd] in
/-- A command that has been checked is applied. -/
theorem resume_checked {m : ApplyMsg Cmd} (hs : S.snapshot = true) (hpc : p.pc = .checkLogs m) (me : Nat) {ok : Bool}
    (hprev : 1 < m.commandIndex → ok = true) : p.resume S me "" ok = p.apply m "" := by
  have hok : ¬ ("" ≠ "ErrRPC" ∧ m.commandIndex > 1 ∧ ok = false) := by
    rintro ⟨_, hlt, hno⟩
    rw [hprev hlt] at hno
    cases hno
  unfold Proc.resume
  rw [hpc]
  dsimp only
  rw [if_pos hs, if_neg hok]

variable (S C) in
/-- A server waits, up to an index, and no other RPC has been left behind. -/
structure WaitsAt (i : Fin n) (tr : List (SrvEvent n Cmd)) (s : Cluster n Cmd) (late : List (Fin n × Call Cmd))
    (k : Int) (p : Proc Cmd) : Prop where
  proc : s.proc i = some p
  waits : p.Waits
  position : position tr i = k
  late : s.late = late

/-- **One command more.** -/
theorem GoodRun.advance (h : GoodRun S C tr s) (hs : S.snapshot = true) {late : List (Fin n × Call Cmd)} {k : Int}
    (hw : WaitsAt i tr s late (k - 1) p) :
    ∃ tr' s' p', Extends S C i tr s tr' s' ∧ WaitsAt i tr' s' late k p' ∧ p'.persister = p.persister
      ∧ ((k + 1) % SnapShotInterval = 0 → .snapshot i k (snapshotAt S C k) ∈ tr') := by
  have hp := hw.proc
  have hgiven := (h.here i).snoc (SrvStep.deliver hp hw.waits.recv) rfl (allowed_nextCmd tr i)
    (fun i' m he hsv => by cases he; cases hsv) nofun
  rw [h.receive_nextCmd hs hp hw.waits] at hgiven
  have hposk := position_nextCmd (C := C) tr i
  have hk : position tr i + 1 = k := by
    rw [hw.position]
    omega
  rw [hk] at hgiven hposk
  rcases hexec : (s.setProc i (some (p.goto (.checkLogs ⟨C k, k⟩)))).exec S i (.checkLogs ⟨C k, k⟩) with ⟨s', err, ok⟩
  have hchecked := hgiven.routine (SrvStep.exec (setProc_proc ..) rfl (hw.waits.goto_rpc _) hexec) rfl rfl
  -- the tester had no objection
  obtain ⟨_, _, hanswer⟩ := (hchecked.good.ok.procs (setProc_proc ..)).pc
  obtain ⟨rfl, hprev⟩ := hanswer _ _ rfl hw.waits.connected
  rw [position_snoc] at hprev
  have hlate : s'.late = late := (exec_rest hexec).2.2.trans hw.late
  have hret := hchecked.routine (SrvStep.ret (setProc_proc ..) rfl) rfl rfl
  rw [resume_checked hs rfl i (fun hlt => hprev (hposk.symm ▸ hlt))] at hret
  unfold Proc.apply at hret
  by_cases hsnap : (k + 1) % SnapShotInterval = 0
  · rw [if_pos hsnap] at hret
    have hmade := hret.routine (SrvStep.snapshot (setProc_proc ..) rfl) rfl rfl
    refine ⟨_, _, _, hmade, ⟨setProc_proc .., ⟨hw.waits.connected, rfl, hw.waits.up⟩, ?_, hlate⟩, rfl, fun _ => ?_⟩
    · rw [position_stays (fun _ => rfl), position_stays (fun _ => rfl), position_stays (fun _ => rfl), hposk]
    · obtain ⟨_, _, hdata⟩ := hmade.good.ok.snaps _ (List.mem_append_right _ (List.mem_singleton_self _))
      rw [← hdata]
      exact List.mem_append_right _ (List.mem_singleton_self _)
  · rw [if_neg hsnap] at hret
    refine ⟨_, _, _, hret, ⟨setProc_proc .., ⟨hw.waits.connected, rfl, hw.waits.up⟩, ?_, hlate⟩, rfl,
      fun h => absurd h hsnap⟩
    rw [position_stays (fun _ => rfl), position_stays (fun _ => rfl), hposk]

/-- **A server is stopped.** What it was calling the tester with is left behind. -/
theorem GoodRun.stop (h : GoodRun S C tr s) (hp : s.proc i = some p) (hup : p.up = true) :
    ∃ tr' s', Extends S C i tr s tr' s' ∧ s'.proc i = none ∧ s'.saved i = p.persister
      ∧ s'.late = (s.abandon i p).late ∧ .kill i ∈ tr' := by
  have hclosed := (h.here i).routine (SrvStep.close hp hup) rfl rfl
  have hcopied := hclosed.routine (SrvStep.checkpoint (setProc_proc ..) rfl) rfl rfl
  have hkilled := hcopied.routine (SrvStep.kill (setProc_proc ..) rfl) rfl rfl
  refine ⟨_, _, hkilled, setProc_proc .., Function.update_self .., ?_,
    List.mem_append_right _ (List.mem_singleton_self _)⟩
  unfold Cluster.abandon
  split <;> rfl

/-- **A server is started with nothing.** -/
theorem GoodRun.startFresh (h : GoodRun S C tr s) (hp : s.proc i = none) (hsaved : s.saved i = []) :
    ∃ tr' s' p', Extends S C i tr s tr' s' ∧ WaitsAt i tr' s' s.late 0 p' := by
  have hstart := (h.here i).routine (SrvStep.start hp) rfl rfl
  have hfresh : newRfsrv S i (s.saved i) = ⟨⟨0, fun _ => none⟩, .recv, .unsent, false, [], none, true⟩ := by
    rw [hsaved]
    exact newRfsrv_fresh (fun h => h.2 rfl) i
  rw [hfresh] at hstart
  refine ⟨_, _, _, hstart, setProc_proc .., ⟨rfl, rfl, rfl⟩, ?_, rfl⟩
  rw [position_snoc]
  exact if_pos rfl

/-- **A server is started with a snapshot**, reports it to the tester and waits. -/
theorem GoodRun.startAt (h : GoodRun S C tr s) (hs : S.snapshot = true) (hp : s.proc i = none) {k : Int}
    (hsaved : s.saved i = snapshotAt S C k) :
    ∃ tr' s' p', Extends S C i tr s tr' s' ∧ WaitsAt i tr' s' s.late k p' := by
  have hstart := (h.here i).routine (SrvStep.start hp) rfl rfl
  rw [hsaved, newRfsrv_snapshotAt hs] at hstart
  have hexec := hstart.routine (SrvStep.exec (setProc_proc ..) rfl rfl rfl) rfl rfl
  have hret := hexec.routine (SrvStep.ret (setProc_proc ..) rfl) rfl rfl
  refine ⟨_, _, _, hret, setProc_proc .., ⟨rfl, rfl, rfl⟩, ?_, rfl⟩
  rw [position_stays (fun _ => rfl), position_stays (fun _ => rfl), position_snoc]
  exact if_pos rfl

/-- A process that has taken over a snapshot and calls the tester with it. -/
def ingesting (S : Setup Cmd) (C : Int → Cmd) (k : Int) (p : Proc Cmd) : Proc Cmd :=
  { p with rs := ⟨k, Log.ofList (snapshotLog S C k)⟩, persister := snapshotAt S C k }.goto (.ingestLog "")

/-- **Raft sends up a snapshot** that some server has made, and persists it. -/
theorem GoodRun.install (h : GoodRun S C tr s) (hs : S.snapshot = true) {late : List (Fin n × Call Cmd)} {k₀ k : Int}
    (hw : WaitsAt i tr s late k₀ p) {j : Fin n} (hmade : .snapshot j k (snapshotAt S C k) ∈ tr) (hk : k₀ < k) :
    ∃ tr' s', Extends S C i tr s tr' s' ∧ s'.proc i = some (ingesting S C k p) ∧ position tr' i = k
      ∧ s'.late = late := by
  have hkept := (h.here i).snoc (e := (.persist i (snapshotAt S C k) : SrvEvent n Cmd)) (SrvStep.persist hw.proc) rfl
    (Or.inr ⟨j, k, hmade⟩) nofun nofun
  have hsent := hkept.snoc
    (e := (.deliver i ⟨false, ⟨S.nil, 0⟩, true, some (snapshotAt S C k), k⟩ : SrvEvent n Cmd))
    (SrvStep.deliver (setProc_proc ..) hw.waits.recv) rfl
    ⟨fun _ => ⟨j, _, rfl, List.mem_append_left _ hmade⟩, nofun, fun _ => rfl⟩
    (fun i' m he _ => by
      cases he
      rw [position_stays (fun _ => rfl), hw.position]
      exact hk) nofun
  have hreceive : Proc.receive S i { p with persister := snapshotAt S C k }
      ⟨false, ⟨S.nil, 0⟩, true, some (snapshotAt S C k), k⟩ = ingesting S C k p := by
    unfold Proc.receive
    rw [if_pos hs, if_pos rfl]
    dsimp only
    rw [ingestSnap_snapshotAt i p.rs (Or.inr rfl)]
    rfl
  rw [hreceive] at hsent
  refine ⟨_, _, hsent, setProc_proc .., ?_, hw.late⟩
  rw [position_snoc]
  exact if_pos rfl

/-- **The server takes over the snapshot**, and waits again. -/
theorem GoodRun.takeOver (h : GoodRun S C tr s) (hs : S.snapshot = true) {late : List (Fin n × Call Cmd)} {k₀ k : Int}
    (hw : WaitsAt i tr s late k₀ p) {j : Fin n} (hmade : .snapshot j k (snapshotAt S C k) ∈ tr) (hk : k₀ < k) :
    ∃ tr' s' p', Extends S C i tr s tr' s' ∧ WaitsAt i tr' s' late k p' := by
  obtain ⟨tr₁, s₁, hext, hp₁, hpos₁, hlate₁⟩ := h.install hs hw hmade hk
  have hexec := hext.routine (SrvStep.exec hp₁ rfl (if_neg (by simp [hw.waits.connected])) rfl) rfl rfl
  have hret := hexec.routine (SrvStep.ret (setProc_proc ..) rfl) rfl rfl
  refine ⟨_, _, _, hret, setProc_proc .., ⟨hw.waits.connected, rfl, rfl⟩, ?_, hlate₁⟩
  rw [position_stays (fun _ => rfl), position_stays (fun _ => rfl), hpos₁]

/-- **A server can be given any number of commands** before any other is started, and makes its first snapshot with the
    ninth. -/
theorem exists_goodRun (hs : S.snapshot = true) (i : Fin n) (k : Nat) :
    ∃ tr s p, Extends S C i [] (rfTest S).init tr s ∧ WaitsAt i tr s [] k p
      ∧ (9 ≤ k → .snapshot i 9 (snapshotAt S C 9) ∈ tr) := by
  induction k with
  | zero =>
      obtain ⟨tr, s, p, hext, hw⟩ := goodRun_nil.startFresh (S := S) (C := C) (i := i) rfl rfl
      exact ⟨tr, s, p, hext, hw, fun h => absurd h (by decide)⟩
  | succ k ih =>
      obtain ⟨tr, s, p, hext, hw, hsnap⟩ := ih
      have hcast : ((k + 1 : Nat) : Int) - 1 = k := by omega
      rw [← hcast] at hw
      obtain ⟨tr', s', p', hext', hw'', -, hmade⟩ := hext.good.advance hs hw
      refine ⟨tr', s', p', hext.trans hext', hw'', fun hk => ?_⟩
      by_cases h9 : 9 ≤ k
      · exact hext'.subset (hsnap h9)
      · obtain rfl : k = 8 := by omega
        exact hmade rfl

end Pieces

/-! ## The result -/

/-- **A Raft that works passes.** When Raft gives every server the commands of one log, no error is posted, whenever
    servers are stopped and started. `nCommitted` returns the number of servers that have an index, and its command;
    and a server that waits for a message, and is not being stopped, has all that it was given. -/
theorem no_false_alarm {n : Nat} {Cmd : Type} [DecidableEq Cmd] (S : Setup Cmd) (C : Int → Cmd)
    (tr : List (SrvEvent n Cmd)) (s : Cluster n Cmd) (hrun : Reaches (rfTest S) tr s) (hone : OneLog C tr)
    (hlate : NoLateIngest tr) :
    (∀ i, s.applyErr i = "") ∧
    (∀ index, 1 ≤ index → s.nCommitted S index
      = .ok ((List.finRange n).countP (fun i => (s.test.logs i index).isSome),
          if (List.finRange n).any (fun i => (s.test.logs i index).isSome) then C index else S.nil)) ∧
    ∀ i p, s.proc i = some p → p.closed = false → p.pc = .recv →
      ∀ index, 1 ≤ index → index ≤ position tr i → s.test.logs i index = some (C index) := by
  have hok := clusterOk hrun hone hlate
  refine ⟨hok.quiet, fun index => nCommitted_eq hok.quiet hok.logs, fun i p hp hopen hrecv index hindex hpos => ?_⟩
  have hheard := hok.heard hp hopen
  rw [heard_recv hrecv] at hheard
  exact hheard index hindex hpos

/-- Server 0 applies nine commands and makes a snapshot, server 1 takes that over, server 0 is stopped, started again
    and given the tenth command. -/
theorem exists_takenOver {Cmd : Type} [DecidableEq Cmd] {S : Setup Cmd} (hs : S.snapshot = true) (C : Int → Cmd) :
    ∃ (tr : List (SrvEvent 2 Cmd)) (s : Cluster 2 Cmd), GoodRun S C tr s ∧ .kill 0 ∈ tr ∧ position tr 0 = 10
      ∧ position tr 1 = 9 ∧ ∀ i, ∃ p, s.proc i = some p ∧ p.Waits := by
  obtain ⟨tr₁, s₁, p₁, hext₁, hw₁, hsnap⟩ := exists_goodRun (n := 2) (S := S) (C := C) hs 0 9
  have hmade := hsnap (Nat.le_refl 9)
  obtain ⟨tr₂, s₂, p₂, hext₂, hw₂⟩ := hext₁.good.startFresh (i := 1) (hext₁.proc (by decide)) (hext₁.saved (by decide))
  obtain ⟨tr₃, s₃, p₃, hext₃, hw₃⟩ := hext₂.good.takeOver hs hw₂ (hext₂.subset hmade) (by decide)
  have hone := hext₂.trans hext₃
  -- back to server 0, which has stayed where it was
  have hp₁ : s₃.proc 0 = some p₁ := (hone.proc (by decide)).trans hw₁.proc
  have hkept := (hone.good.here 0).snoc (e := (.persist 0 (snapshotAt S C 9) : SrvEvent 2 Cmd)) (SrvStep.persist hp₁)
    rfl (Or.inr ⟨0, 9, hone.subset hmade⟩) nofun nofun
  obtain ⟨tr₄, s₄, hext₄, hdown, hsaved, -, hkill⟩ := hkept.good.stop (setProc_proc ..) hw₁.waits.up
  obtain ⟨tr₅, s₅, p₅, hext₅, hw₅⟩ := hext₄.good.startAt hs hdown hsaved
  obtain ⟨tr₆, s₆, p₆, hext₆, hw₆, -⟩ := hext₅.good.advance (k := 10) hs hw₅
  have hzero := ((hkept.trans hext₄).trans hext₅).trans hext₆
  refine ⟨tr₆, s₆, hext₆.good, hext₆.subset (hext₅.subset hkill), hw₆.position, ?_, fun i => ?_⟩
  · rw [hzero.position (by decide), hw₃.position]
  · rcases Fin.exists_fin_two.mp ⟨i, rfl⟩ with rfl | rfl
    · exact ⟨p₆, hw₆.proc, hw₆.waits⟩
    · exact ⟨p₃, (hzero.proc (by decide)).trans hw₃.proc, hw₃.waits⟩

/-- In that run no error is posted, and the tester counts the servers that have committed. -/
theorem no_false_alarm_takenOver : ∃ (tr : List (SrvEvent 2 Bool)) (s : Cluster 2 Bool),
    Reaches (rfTest ⟨plainSnapCodec Bool, false, toString, true⟩) tr s ∧ OneLog (fun k => decide (k % 2 = 0)) tr
      ∧ NoLateIngest tr ∧ .kill 0 ∈ tr ∧ s.nCommitted ⟨plainSnapCodec Bool, false, toString, true⟩ 9 = .ok (2, false)
      ∧ s.test.logs 0 10 = some true := by
  obtain ⟨tr, s, hgood, hkill, hpos0, hpos1, hwaits⟩ :=
    exists_takenOver (S := ⟨plainSnapCodec Bool, false, toString, true⟩) rfl (fun k => decide (k % 2 = 0))
  obtain ⟨-, hcount, hlogs⟩ := no_false_alarm _ _ tr s hgood.run hgood.one hgood.late
  have hhas : ∀ i, ∀ index, 1 ≤ index → index ≤ position tr i →
      s.test.logs i index = some (decide (index % 2 = 0)) := by
    intro i
    obtain ⟨p, hp, hw⟩ := hwaits i
    exact hlogs i p hp hw.connected hw.recv
  have hboth : ∀ i, s.test.logs i 9 = some false := by
    intro i
    refine hhas i 9 (by decide) ?_
    rcases Fin.exists_fin_two.mp ⟨i, rfl⟩ with rfl | rfl <;> omega
  refine ⟨tr, s, hgood.run, hgood.one, hgood.late, hkill, ?_, hhas 0 10 (by decide) (by omega)⟩
  rw [hcount 9 (by decide)]
  simp [hboth]

end Raft
end DistributedLabs
