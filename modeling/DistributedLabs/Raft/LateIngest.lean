import DistributedLabs.Raft.GoodRun

/-!
# `Raft.LateIngest` — why an `IngestLog` must not be late

A server that lags behind is sent a snapshot by Raft. It takes the snapshot over and calls the tester with it; let the
tester receive that `IngestLog` but not execute it, stop the server and start it again. The new process finds the
snapshot in its persister, reports it to the tester, and applies the next command. Now the first `IngestLog` is
executed, and the tester has forgotten that command: to the one that follows it answers that the server has skipped an
index (`late_ingest_alarm`). Raft has done nothing wrong, and neither has the server.

The run is put together from the pieces of `Raft.GoodRun`, up to the call that comes late (`GoodRun.alarm`).
-/

namespace DistributedLabs
namespace Raft

open Lib

section Alarm

variable {n : Nat} {Cmd : Type} {S : Setup Cmd} {C : Int → Cmd} {tr : List (SrvEvent n Cmd)} {s : Cluster n Cmd}
  {i : Fin n} {p : Proc Cmd}

/-- A command whose predecessor is missing at the tester is applied with an error. -/
theorem resume_skipped {m : ApplyMsg Cmd} (hs : S.snapshot = true) (hpc : p.pc = .checkLogs m) (me : Nat)
    (hlt : 1 < m.commandIndex) : p.resume S me "" false = p.apply m (outOfOrder me m.commandIndex) := by
  have hskip : "" ≠ "ErrRPC" ∧ m.commandIndex > 1 ∧ false = false := ⟨by decide, hlt, rfl⟩
  unfold Proc.resume
  rw [hpc]
  dsimp only
  rw [if_pos hs, if_pos hskip]

variable [DecidableEq Cmd]

/-- **An `IngestLog` that comes late and lacks the last command makes the next one an error.** -/
theorem GoodRun.alarm (h : GoodRun S C tr s) (hs : S.snapshot = true) {l₁ l₂ : List (Fin n × Call Cmd)}
    {xlog : Log Cmd} {k : Int} (hw : WaitsAt i tr s (l₁ ++ (i, .ingestLog xlog) :: l₂) (k - 1) p) (hk : 1 < k)
    (hlacks : xlog (k - 1) = none) (hsnap : ¬ (k + 1) % SnapShotInterval = 0) :
    ∃ tr' s', Reaches (rfTest S) tr' s' ∧ OneLog C tr' ∧ Ahead tr' ∧ s'.applyErr i = outOfOrder i k := by
  have hcall : (Call.ingestLog xlog).Ok S C :=
    h.ok.late (hw.late ▸ List.mem_append_right _ (List.mem_cons_self ..))
  have hE := exec_ok (i := i) h.ok.logs hcall rfl
  have hlost := h.run.snoc (e := (.late i (.ingestLog xlog) "" false : SrvEvent n Cmd)) (SrvStep.late hw.late rfl)
  have hgiven := hlost.snoc (e := (.deliver i (nextCmd C (position tr i)) : SrvEvent n Cmd))
    (SrvStep.deliver hw.proc hw.waits.recv)
  rw [h.receive_nextCmd hs hw.proc hw.waits] at hgiven
  have hpos : position tr i + 1 = k := by
    rw [hw.position]
    omega
  rw [hpos] at hgiven
  -- the tester has no entry before this one any more
  rcases hexec : Cluster.exec S _ i (.checkLogs ⟨C k, k⟩) with ⟨s', err, ok⟩
  have hchecked := hgiven.snoc (SrvStep.exec (setProc_proc ..) rfl (hw.waits.goto_rpc _) hexec)
  obtain ⟨rfl, rfl, hok, -⟩ := exec_checkLogs (by exact hE.logs) (by show 1 ≤ k; omega) rfl hexec
  obtain rfl : ok = false := by
    have hbefore : (s.test.ingestLog i xlog).logs i (k - 1) = none := by
      rw [ingestLog_self, hlacks]
    exact hok.trans (congrArg Option.isSome hbefore)
  have hret := hchecked.snoc (SrvStep.ret (setProc_proc ..) rfl)
  rw [resume_skipped hs rfl i hk] at hret
  have hskipped : outOfOrder i k ≠ "" := outOfOrder_ne i k
  unfold Proc.apply Proc.post at hret
  rw [if_neg hsnap, if_pos hskipped] at hret
  have hposted := hret.snoc (SrvStep.exec (setProc_proc ..) rfl (hw.waits.goto_rpc .recv) rfl)
  refine ⟨_, _, hposted, ?_, ?_, Function.update_self ..⟩
  · have hnext := allowed_nextCmd (C := C) (tr ++ [.late i (.ingestLog xlog) "" false]) i
    rw [position_stays (fun _ => rfl)] at hnext
    simp only [oneLog_snoc]
    exact ⟨⟨⟨⟨⟨h.one, trivial⟩, hnext⟩, trivial⟩, trivial⟩, trivial⟩
  · refine ahead_snoc (ahead_snoc (ahead_snoc (ahead_snoc (ahead_snoc h.ahead nofun) ?_) nofun) nofun) nofun
    intro i' m he hsv
    cases he
    cases hsv

end Alarm

/-- **The proviso of `no_false_alarm` is needed.** With snapshots and two servers there is a run in which Raft gives
    every server the one log, sends up only snapshots that are ahead of the server, and the tester accuses it of a
    command out of order. -/
theorem late_ingest_alarm {n : Nat} {Cmd : Type} [DecidableEq Cmd] (S : Setup Cmd) (hs : S.snapshot = true)
    (C : Int → Cmd) (i j : Fin n) (hij : i ≠ j) :
    ∃ tr s, Reaches (rfTest S) tr s ∧ OneLog C tr ∧ Ahead tr ∧ s.applyErr i = outOfOrder i 11 := by
  -- server `j` makes a snapshot, and Raft sends it to server `i`
  obtain ⟨tr₁, s₁, p₁, hext₁, hw₁, hsnap⟩ := exists_goodRun (S := S) (C := C) hs j 9
  have hmade := hsnap (Nat.le_refl 9)
  obtain ⟨tr₂, s₂, p₂, hext₂, hw₂⟩ := hext₁.good.startFresh (hext₁.proc hij) (hext₁.saved hij)
  rw [hw₁.late] at hw₂
  obtain ⟨tr₃, s₃, hext₃, hp₃, -, hlate₃⟩ := hext₂.good.install hs hw₂ (hext₂.subset hmade) (by decide)
  -- server `i` is stopped while the tester has its `IngestLog`
  obtain ⟨tr₄, s₄, hext₄, hdown, hsaved, hlate₄, -⟩ := hext₃.good.stop hp₃ hw₂.waits.up
  have hleft : s₄.late = [] ++ (i, .ingestLog (Log.ofList (snapshotLog S C 9))) :: [] := by
    have hsent : (ingesting S C 9 p₂).rpc = .sent := if_neg (by simp [hw₂.waits.connected])
    rw [hlate₄]
    unfold Cluster.abandon
    rw [if_pos hsent, hlate₃]
    rfl
  -- it starts again with the snapshot, and is given the tenth command
  obtain ⟨tr₅, s₅, p₅, hext₅, hw₅⟩ := hext₄.good.startAt hs hdown hsaved
  obtain ⟨tr₆, s₆, p₆, hext₆, hw₆, -⟩ := hext₅.good.advance (k := 10) hs hw₅
  rw [hleft] at hw₆
  have hlacks : Log.ofList (snapshotLog S C 9) 10 = none := by
    unfold snapshotLog
    rw [ofList_xlog]
    rfl
  exact hext₆.good.alarm (k := 11) hs hw₆ (by decide) hlacks (by decide)

/-- With the plain codec and a log of equal commands. -/
theorem late_ingest_alarm_two : ∃ (tr : List (SrvEvent 2 Bool)) (s : Cluster 2 Bool),
    Reaches (rfTest ⟨plainSnapCodec Bool, false, toString, true⟩) tr s ∧ OneLog (fun _ => true) tr ∧ Ahead tr
      ∧ s.applyErr 1 = "server 1 apply out of order 11" := by
  obtain ⟨tr, s, hrun, hone, hahead, herr⟩ :=
    late_ingest_alarm ⟨plainSnapCodec Bool, false, toString, true⟩ rfl (fun _ => true) (1 : Fin 2) 0 (by decide)
  exact ⟨tr, s, hrun, hone, hahead, herr.trans (by decide)⟩

end Raft
end DistributedLabs
